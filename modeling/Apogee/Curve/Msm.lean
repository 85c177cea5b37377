import Apogee.Curve.Groups

/-! # Multi-scalar multiplication

Pippenger's windows over G1. A scalar is recoded into signed digits, a window's
bases are gathered in the buckets of their digits' magnitudes, and the windows are
joined by doublings. A shift, an index or a slice that is out of range is `none`.
-/

namespace Apogee.Curve

open Math Kernel

abbrev G1Affine := Affine Fq

abbrev G1Projective := Projective Fq

inductive MsmError where
  | lengthMismatch (bases scalars : ℕ)
deriving DecidableEq

/-- Bits in a scalar of the field. -/
def frBits : ℕ := 254

def u32Bits : ℕ := 32

def divCeil (a b : ℕ) : ℕ := (a + b - 1) / b

/-- The exponent of a power of two, the bit length of any other number. -/
def log2 (n : ℕ) : ℕ := if 2 ^ Nat.log2 n = n then Nat.log2 n else Nat.log2 n + 1

/-- The window width for `n` points. -/
def windowBits (n : ℕ) : ℕ := if n < 32 then 3 else log2 n * 69 / 100 + 2

/-- The windows of a scalar, the top one with room for a carry. -/
def windowCount (bits w : ℕ) : ℕ := divCeil (bits + 1) w

/-- A 64-bit `1 << w`. -/
def shiftedOne (w : ℕ) : Option ℕ := if w < 64 then some (2 ^ w) else none

/-- The limbs of a scalar's canonical bytes. -/
def canonicalLimbs (scalar : Fr) : List ℕ := byteLimbs (Fr.toBytes scalar)

/-- The `w` bits at an offset, out of one limb or two. -/
def windowOf (limbs : List ℕ) (offset w : ℕ) : Option ℕ := do
  let limb := offset / 64
  let shift := offset % 64
  let low ← limbs[limb]?
  let v := low / 2 ^ shift
  let v ← (if 0 < shift ∧ limb + 1 < 4 then
      (limbs[limb + 1]?).map fun high => v ||| high * 2 ^ (64 - shift) % 2 ^ 64
    else some v)
  let mask ← shiftedOne w
  some (v &&& mask - 1)

/-- A 64-bit integer cast to 32 bits. -/
def asI32 (x : ℤ) : ℤ := x.bmod (2 ^ 32)

/-- One window's digit, and the carry out of it; the top window emits none. -/
def digitStep (window : ℕ → Option ℕ) (w last : ℕ) (state : List ℤ × ℕ) (i : ℕ) :
    Option (List ℤ × ℕ) := do
  let raw ← window i
  let coef ← checked 64 (raw + state.2)
  if i = last then
    -- the top window must swallow its carry
    if coef ≤ 2 ^ (w - 1) then some (state.1 ++ [asI32 coef], state.2) else none
  else if 2 ^ (w - 1) ≤ coef then some (state.1 ++ [asI32 (coef - 2 ^ w)], 1)
  else some (state.1 ++ [asI32 coef], 0)

/-- A scalar's digits, by its windows. -/
def recodeWith (window : ℕ → Option ℕ) (w windows : ℕ) : Option (List ℤ) :=
  if 0 < w ∧ w < 63 ∧ 0 < windows then
    ((List.range windows).foldlM (digitStep window w (windows - 1)) ([], 0)).map Prod.fst
  else none

def recode (limbs : List ℕ) (w windows : ℕ) : Option (List ℤ) :=
  recodeWith (fun i => windowOf limbs (i * w) w) w windows

def recodeU32 (scalar : UInt32) (w windows : ℕ) : Option (List ℤ) :=
  recodeWith (fun i =>
    if i * w < 64 then some (scalar.toNat / 2 ^ (i * w) &&& 2 ^ w - 1) else none) w windows

/-- The elements from `start` up to `stop`. -/
def sliceOf {α : Type*} (xs : List α) (start stop : ℕ) : Option (List α) :=
  if start ≤ stop ∧ stop ≤ xs.length then some ((xs.take stop).drop start) else none

/-- One base added to the bucket of its digit. -/
def bucketStep (digits : List ℤ) (windows window : ℕ) (bucket : List G1Projective)
    (entry : G1Affine × ℕ) : Option (List G1Projective) := do
  let digit ← digits[entry.2 * windows + window]?
  if digit = 0 then some bucket
  else do
    let slot ← bucket[digit.natAbs - 1]?
    let added := if 0 < digit then slot.addAffine entry.1 else slot.addAffine entry.1.neg
    some (bucket.set (digit.natAbs - 1) added)

/-- The buckets' running sums from the top, and their total. -/
def runningSum (bucket : List G1Projective) : G1Projective × G1Projective :=
  bucket.reverse.foldl (fun (running, total) b =>
    let running := running.add b
    (running, total.add running)) (.identity, .identity)

/-- One window's contribution over one slice of the input. -/
def windowSum (bases : List G1Affine) (digits : List ℤ) (windows window buckets : ℕ) :
    Option G1Projective :=
  if bases = [] then some .identity
  else do
    let bucket ← bases.zipIdx.foldlM (bucketStep digits windows window)
      (List.replicate buckets .identity)
    some (runningSum bucket).2

/-- The sum of a window over a chunk of the input. -/
def partialSum (bases : List G1Affine) (digits : List ℤ) (windows buckets chunks chunkLen : ℕ)
    (task : ℕ) : Option G1Projective := do
  let n := bases.length
  let offset ← checked 64 (task % chunks * chunkLen)
  let start := min offset n
  let reach ← checked 64 (start + chunkLen)
  let stop := min reach n
  let baseSlice ← sliceOf bases start stop
  let digitSlice ← sliceOf digits (start * windows) (stop * windows)
  windowSum baseSlice digitSlice windows (task / chunks) buckets

/-- One window joined to those above it. -/
def joinWindow (partials : List G1Projective) (chunks w : ℕ) (acc : G1Projective) (window : ℕ) :
    Option G1Projective :=
  (List.range chunks).foldlM (fun (acc : G1Projective) chunk =>
    (partials[window * chunks + chunk]?).map acc.add) (Projective.double^[w] acc)

/-- The chunks that a window's bases are split in, for a number of threads. -/
def chunkCount (threads n windows buckets : ℕ) : ℕ :=
  min (max (divCeil threads windows) 1) (max (n / buckets) 1)

def pippenger (threads : ℕ) (bases : List G1Affine) (digits : List ℤ) (windows w : ℕ) :
    Option G1Projective := do
  let n := bases.length
  let buckets ← shiftedOne (w - 1)
  let chunks := chunkCount threads n windows buckets
  let chunkLen := divCeil n chunks
  let tasks ← checked 64 (windows * chunks)
  let partials ← (List.range tasks).mapM
    (partialSum bases digits windows buckets chunks chunkLen)
  (List.range windows).reverse.foldlM (joinWindow partials chunks w) .identity

/-- The sum of the multiples, for scalars of some width and their recoding. -/
def msmWith {σ : Type*} (recoder : σ → ℕ → ℕ → Option (List ℤ)) (bits threads : ℕ)
    (bases : List G1Affine) (scalars : List σ) : Option (Except MsmError G1Projective) :=
  if bases.length ≠ scalars.length then
    some (.error (.lengthMismatch bases.length scalars.length))
  else if bases = [] then some (.ok .identity)
  else do
    let w := windowBits bases.length
    let windows := windowCount bits w
    let _ ← checked 64 (bases.length * windows)
    let rows ← scalars.mapM fun scalar => recoder scalar w windows
    (pippenger threads bases rows.flatten windows w).map .ok

/-- The sum of the multiples by field scalars. -/
def msm (threads : ℕ) (bases : List G1Affine) (scalars : List Fr) :
    Option (Except MsmError G1Projective) :=
  msmWith (fun scalar => recode (canonicalLimbs scalar)) frBits threads bases scalars

/-- The sum of the multiples by 32-bit scalars. -/
def msmSmallU32 (threads : ℕ) (bases : List G1Affine) (scalars : List UInt32) :
    Option (Except MsmError G1Projective) :=
  msmWith recodeU32 u32Bits threads bases scalars

end Apogee.Curve
