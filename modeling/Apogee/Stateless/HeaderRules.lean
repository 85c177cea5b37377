import Apogee.Math.Taylor
import Apogee.Stateless.Ancestors

/-! # The guest's arithmetic

Unsigned integers of a fixed width. The plain operations stop the guest when they
overflow; the checked ones return nothing.
-/

namespace Apogee.Stateless

/-- What stops the guest without a result. -/
inductive Panic where
  | overflow
  | divisionByZero
deriving DecidableEq

/-- A computation of the guest. -/
abbrev Run (α : Type) := Except Panic α

namespace Machine

def checkedAdd (width a b : ℕ) : Option ℕ := if a + b < 2 ^ width then some (a + b) else none

def checkedMul (width a b : ℕ) : Option ℕ := if a * b < 2 ^ width then some (a * b) else none

def add (width a b : ℕ) : Run ℕ := if a + b < 2 ^ width then pure (a + b) else throw .overflow

def mul (width a b : ℕ) : Run ℕ := if a * b < 2 ^ width then pure (a * b) else throw .overflow

def sub (a b : ℕ) : Run ℕ := if b ≤ a then pure (a - b) else throw .overflow

def div (a b : ℕ) : Run ℕ := if b = 0 then throw .divisionByZero else pure (a / b)

variable {width a b : ℕ}

theorem ok_bind {α β : Type} (value : α) (next : α → Run β) :
    (Except.ok value : Run α) >>= next = next value := rfl

theorem add_ok (fits : a + b < 2 ^ width) : add width a b = .ok (a + b) := if_pos fits

theorem mul_ok (fits : a * b < 2 ^ width) : mul width a b = .ok (a * b) := if_pos fits

theorem sub_ok (below : b ≤ a) : sub a b = .ok (a - b) := if_pos below

theorem div_ok (positive : b ≠ 0) : div a b = .ok (a / b) := if_neg positive

end Machine

/-- A value of a `u64`, or the largest. -/
def saturated (n : ℕ) : ℕ := min n (2 ^ 64 - 1)

end Apogee.Stateless

/-! ## The rules of a header

What a header owes its parent, rule by rule, under the blob schedule of its fork.
-/

namespace Apogee.Stateless

open Machine

/-! ## Forks -/

/-- Gas per blob. -/
def gasPerBlob : ℕ := 2 ^ 17

/-- A blob's execution-gas floor. -/
def blobBaseCost : ℕ := 2 ^ 13

/-- The hash of the empty list, which every header's ommers hash is. -/
def emptyOmmerHash : Word32 :=
  ⟨[0x1d, 0xcc, 0x4d, 0xe8, 0xde, 0xc7, 0x5d, 0x7a, 0xab, 0x85, 0xb5, 0x67, 0xb6, 0xcc, 0xd4, 0x1a,
    0xd3, 0x12, 0x45, 0x1b, 0x94, 0x8a, 0x74, 0x13, 0xf0, 0xa1, 0x42, 0xfd, 0x40, 0xd4, 0x93, 0x47],
    rfl⟩

/-- The rules the block executes under. -/
inductive SpecId where
  | osaka
  | amsterdam
deriving DecidableEq

/-- One fork, named by its schema id, with its blob schedule. -/
structure Fork where
  schemaId : UInt16
  spec : SpecId
  amsterdam : Bool
  blobTarget : UInt64
  blobMax : UInt64
  blobFraction : UInt64
deriving DecidableEq

/-- The forks a schema id may name. -/
def fork (schemaId : UInt16) : Option Fork :=
  if schemaId = 0x1201 then some ⟨schemaId, .osaka, false, 6, 9, 5007716⟩
  else if schemaId = 0x1301 then some ⟨schemaId, .osaka, false, 10, 15, 8346193⟩
  else if schemaId = 0x1401 then some ⟨schemaId, .osaka, false, 14, 21, 11684671⟩
  else if schemaId = 0x1501 then some ⟨schemaId, .amsterdam, true, 14, 21, 11684671⟩
  else none

/-! ## The blob gas price -/

/-- The rounds of `fakeExponential`, every step checked. -/
def fakeLoop (numerator denominator i output accumulator : ℕ) : Run (Option ℕ) :=
  if accumulator = 0 then some <$> div output denominator
  else
    match _summed : checkedAdd 128 output accumulator with
    | none => pure none
    | some sum =>
      match checkedMul 128 accumulator numerator, checkedMul 128 denominator i with
      | some scaled, some divisor => do
        let next ← div scaled divisor
        let round ← add 128 i 1
        fakeLoop numerator denominator round sum next
      | _, _ => pure none
termination_by 2 ^ 128 - output
decreasing_by
  obtain ⟨fits, same⟩ := Option.ite_none_right_eq_some.mp _summed
  have whole := Option.some.inj same
  omega

def fakeExponential (factor numerator denominator : ℕ) : Run (Option ℕ) :=
  match checkedMul 128 factor denominator with
  | none => pure none
  | some accumulator => fakeLoop numerator denominator 1 0 accumulator

/-- The blob gas price that an excess implies. -/
def blobGasPrice (fork : Fork) (excessBlobGas : UInt64) : Run (Option ℕ) :=
  fakeExponential 1 excessBlobGas.toNat fork.blobFraction.toNat

/-! ## The rules -/

/-- Every way a header fails against its parent, in the order they are tried. -/
inductive HeaderError where
  | numberZero
  | excessBlobGas
  | gasUsedOverLimit
  | gasLimit
  | baseFee
  | timestamp
  | number
  | extraData
  | difficulty
  | nonce
  | ommersHash
  | parentHash
deriving DecidableEq

/-- Within a step of the parent's, and at least 5000. -/
def gasLimitFits (gasLimit parentGasLimit : ℕ) : Run Bool := do
  let delta := parentGasLimit / 1024
  if gasLimit < saturated (parentGasLimit + delta) then
    let least ← sub parentGasLimit delta
    pure (decide (least < gasLimit ∧ 5000 ≤ gasLimit))
  else pure false

/-- The base fee of the parent's child. -/
def baseFee (parent : Header) : Run ℕ := do
  let base := parent.baseFeePerGas.toNat
  let used := parent.gasUsed.toNat
  let target := parent.gasLimit.toNat / 2
  if target = 0 ∨ used = target then pure base
  else if target < used then
    let above ← sub used target
    let product ← mul 128 base above
    let quotient ← div product target
    let fee ← add 128 base (max (quotient / 8) 1)
    pure (saturated fee)
  else
    let below ← sub target used
    let product ← mul 128 base below
    let quotient ← div product target
    let fee ← sub base (quotient / 8)
    pure (saturated fee)

/-- Whether a blob's execution-gas floor outprices its blob gas. -/
def reserveBinds (price : Option ℕ) (base : ℕ) : Run Bool :=
  match price.bind (checkedMul 128 gasPerBlob) with
  | none => pure false
  | some targetPrice => do
    let floor ← mul 128 blobBaseCost base
    pure (decide (targetPrice < floor))

/-- The excess blob gas of the parent's child; none when the parent's excess and blob gas
overflow a `u64`. -/
def excessBlobGas (fork : Fork) (parent : Header) : Run (Option ℕ) := do
  let target ← mul 64 fork.blobTarget.toNat gasPerBlob
  match checkedAdd 64 parent.excessBlobGas.toNat parent.blobGasUsed.toNat with
  | none => pure none
  | some parentBlobGas =>
    if parentBlobGas < target then pure (some 0)
    else
      let price ← blobGasPrice fork parent.excessBlobGas
      let binds ← reserveBinds price parent.baseFeePerGas.toNat
      if binds then
        let delta ← sub fork.blobMax.toNat fork.blobTarget.toNat
        let product ← mul 128 parent.blobGasUsed.toNat delta
        let scaled ← div product fork.blobMax.toNat
        let sum ← add 128 parent.excessBlobGas.toNat scaled
        pure (if sum < 2 ^ 64 then some sum else none)
      else
        let excess ← sub parentBlobGas target
        pure (some excess)

/-- The header against its parent, rule by rule. -/
def validateHeader (fork : Fork) (parent : Header) (parentHash : Word32) (header : Header) :
    Run (Except HeaderError Unit) := do
  if header.number < 1 then return .error .numberZero
  let excess ← excessBlobGas fork parent
  if some header.excessBlobGas.toNat ≠ excess then return .error .excessBlobGas
  if header.gasLimit < header.gasUsed then return .error .gasUsedOverLimit
  let fits ← gasLimitFits header.gasLimit.toNat parent.gasLimit.toNat
  if fits = false then return .error .gasLimit
  let fee ← baseFee parent
  if header.baseFeePerGas.toNat ≠ fee then return .error .baseFee
  if header.timestamp ≤ parent.timestamp then return .error .timestamp
  if some header.number.toNat ≠ checkedAdd 64 parent.number.toNat 1 then return .error .number
  if 32 < header.extraData.length then return .error .extraData
  if header.difficulty.val ≠ List.replicate 32 0 then return .error .difficulty
  if header.nonce.val ≠ List.replicate 8 0 then return .error .nonce
  if header.ommersHash ≠ emptyOmmerHash then return .error .ommersHash
  if header.parentHash ≠ parentHash then return .error .parentHash
  return .ok ()

end Apogee.Stateless
