import Apogee.Circuit.Validated
import Apogee.Math.Codec

/-! # The artifact's wire form

Every type is written as a tuple, in the variable-length format the artifacts are
stored in: numbers as seven-bit groups, lists and names counted, a gate as its
tag, a split, its coefficients and its operands. The reader reads overlong numbers
too, so an artifact is accepted only where it is the encoding of what it decodes to.
-/

namespace Apogee

open Apogee.Math

/-- A decoder of the artifact's wire form. The texts of its refusals are dropped:
a key's decoder puts one of its own in their place. -/
abbrev Deserialize (α : Type) := Reader Unit α

namespace Postcard

/-- The next byte. -/
def byte : Deserialize ℕ := fun bytes =>
  match bytes with
  | [] => .error ()
  | first :: rest => .ok (first.toNat, rest)

/-- A number of at most some groups, whose last possible group is bounded. -/
def varint (last : ℕ) : ℕ → Deserialize ℕ
  | 0 => fun _ => .error ()
  | groups + 1 => do
    let group ← byte
    if group < 128 then
      if groups = 0 ∧ last < group then (fun _ => .error ()) else pure group
    else do
      let high ← varint last groups
      pure (group - 128 + 128 * high)

/-- The groups of a number, low first. -/
def varintBytes : ℕ → ℕ → List UInt8
  | 0, _ => []
  | groups + 1, n =>
    if n < 128 then [UInt8.ofNat n]
    else UInt8.ofNat (n % 128 + 128) :: varintBytes groups (n / 128)

def u32 : Deserialize ℕ := varint 15 5

/-- A length, at the width of a 64-bit machine. -/
def length : Deserialize ℕ := varint 1 10

def bool : Deserialize Bool := do
  let tag ← byte
  if tag = 0 then pure false
  else if tag = 1 then pure true
  else fun _ => .error ()

def seq {α : Type} (item : Deserialize α) : Deserialize (List α) := do
  let n ← length
  repeatRead item n

/-- A name is valid UTF-8. -/
def nameOfBytes (bytes : List UInt8) : Except Unit String :=
  match String.fromUTF8? ⟨bytes.toArray⟩ with
  | some name => .ok name
  | none => .error ()

def name : Deserialize String := convert nameOfBytes (do
  let n ← length
  takeBytes () n)

def option {α : Type} (item : Deserialize α) : Deserialize (Option α) := do
  let tag ← byte
  if tag = 0 then pure none
  else if tag = 1 then do
    let value ← item
    pure (some value)
  else fun _ => .error ()

def fr : Deserialize Fr := convert (fun bytes : List UInt8 =>
  if leValue bytes < frModulus then .ok (leValue bytes : Fr) else .error ()) (takeBytes () 32)

end Postcard

namespace Serialize

def u8 : Writer ℕ := fun n => some [UInt8.ofNat n]

def u32 : Writer ℕ := fun n => some (Postcard.varintBytes 5 n)

def length : Writer ℕ := fun n => some (Postcard.varintBytes 10 n)

def bool : Writer Bool := fun b => some [if b then 1 else 0]

def seq {α : Type} (item : Writer α) : Writer (List α) := fun values =>
  written [length values.length, writeEach item values]

def name : Writer String := fun s =>
  written [length s.toUTF8.data.toList.length, some s.toUTF8.data.toList]

def option {α : Type} (item : Writer α) : Writer (Option α)
  | none => some [0]
  | some value => written [some [1], item value]

def fr : Writer Fr := fun x => some (leBytes 32 x.val)

end Serialize

namespace Postcard

theorem byte_cons {n : ℕ} {rest : List UInt8} (small : n < 256) :
    byte (UInt8.ofNat n :: rest) = .ok (n, rest) := by
  rw [byte, UInt8.toNat_ofNat', Nat.mod_eq_of_lt small]

/-- A number below the bound of its groups is read back. -/
theorem varint_varintBytes {groups n last : ℕ} (rest : List UInt8) (low : last < 128)
    (small : n < 128 ^ groups * (last + 1)) :
    varint last (groups + 1) (varintBytes (groups + 1) n ++ rest) = .ok (n, rest) := by
  induction groups generalizing n with
  | zero =>
    have bounded : n < last + 1 := by rwa [pow_zero, one_mul] at small
    have short : n < 128 := by omega
    rw [varintBytes, if_pos short, varint, reader_bind]
    refine ⟨n, rest, byte_cons (by omega), ?_⟩
    rw [if_pos short, if_neg (by omega)]
    rfl
  | succ groups ih =>
    rw [varint, reader_bind, varintBytes]
    by_cases short : n < 128
    · rw [if_pos short]
      refine ⟨n, rest, byte_cons (by omega), ?_⟩
      rw [if_pos short, if_neg (by omega)]
      rfl
    · rw [if_neg short]
      have high : n / 128 < 128 ^ groups * (last + 1) := by
        rw [Nat.div_lt_iff_lt_mul (by decide)]
        rw [pow_succ] at small
        calc n < 128 ^ groups * 128 * (last + 1) := small
          _ = 128 ^ groups * (last + 1) * 128 := by ring
      refine ⟨n % 128 + 128, varintBytes (groups + 1) (n / 128) ++ rest, byte_cons (by omega), ?_⟩
      rw [if_neg (by omega), reader_bind]
      refine ⟨n / 128, rest, ih high, ?_⟩
      rw [reader_pure, Nat.add_sub_cancel, Nat.mod_add_div]

theorem u8_restores : Restores byte (fun n => n < 256) Serialize.u8 := by
  intro n front rest small wrote
  cases wrote
  exact byte_cons small

theorem u32_restores : Restores u32 (fun n => n < 2 ^ 32) Serialize.u32 := by
  intro n front rest small wrote
  cases wrote
  exact varint_varintBytes rest (by decide) (small.trans_le (by norm_num))

theorem length_restores : Restores length (fun n => n < 2 ^ 64) Serialize.length := by
  intro n front rest small wrote
  cases wrote
  exact varint_varintBytes rest (by decide) (small.trans_le (by norm_num))

theorem bool_restores : Restores bool (fun _ => True) Serialize.bool := by
  intro b front rest _ wrote
  cases wrote
  cases b <;> rfl

theorem seq_restores {α : Type} {item : Deserialize α} {fits : α → Prop} {write : Writer α}
    (restores : Restores item fits write) :
    Restores (seq item) (fun values => values.length < 2 ^ 64 ∧ ∀ value ∈ values, fits value)
      (Serialize.seq write) := by
  rintro values bytes rest ⟨short, fit⟩ wrote
  obtain ⟨front, counted, back, wroteItems, rfl⟩ := written_pair_eq_some.mp wrote
  rw [seq, reader_bind, List.append_assoc]
  exact ⟨values.length, back ++ rest, length_restores _ _ _ short counted,
    restores.repeatRead _ _ _ _ ⟨rfl, fit⟩ wroteItems⟩

theorem name_restores :
    Restores name (fun s => s.toUTF8.data.toList.length < 2 ^ 64) Serialize.name := by
  rintro s bytes rest short wrote
  obtain ⟨front, counted, back, same, rfl⟩ := written_pair_eq_some.mp wrote
  cases same
  rw [name, convert_ok]
  refine ⟨s.toUTF8.data.toList, ?_, ?_⟩
  · rw [reader_bind, List.append_assoc]
    exact ⟨_, _, length_restores _ _ _ short counted,
      (takeBytes_inverts () _).restores _ _ _ rfl rfl⟩
  · have valid : (ByteArray.mk s.toUTF8.data).IsValidUTF8 := s.isValidUTF8
    rw [nameOfBytes, Array.toArray_toList, String.fromUTF8?, dif_pos valid]
    rfl

theorem option_restores {α : Type} {item : Deserialize α} {fits : α → Prop} {write : Writer α}
    (restores : Restores item fits write) :
    Restores (option item) (fun value => ∀ inner, value = some inner → fits inner)
      (Serialize.option write) := by
  intro value bytes rest fit wrote
  cases value with
  | none =>
    cases wrote
    rfl
  | some inner =>
    obtain ⟨front, tag, back, wroteInner, rfl⟩ := written_pair_eq_some.mp wrote
    cases tag
    rw [option, reader_bind]
    refine ⟨1, back ++ rest, rfl, ?_⟩
    rw [if_neg (by decide), if_pos rfl, reader_bind]
    exact ⟨inner, rest, restores _ _ _ (fit inner rfl) wroteInner, rfl⟩

theorem fr_restores : Restores fr (fun _ => True) Serialize.fr := by
  have room : frModulus < 256 ^ 32 := by norm_num [frModulus]
  refine Restores.convert (fun x : Fr => leBytes 32 x.val) (takeBytes_inverts () 32).restores ?_ ?_
  · intro x _
    rw [leValue_leBytes (x.val_lt.trans room), if_pos x.val_lt, ZMod.natCast_zmod_val]
  · exact fun x _ => leBytes_length 32 x.val

end Postcard

section Addresses

/-- A virtual table's tag. -/
def VirtualKind.tag : VirtualKind → ℕ
  | .rowIndex => 0
  | .ramLive => 1
  | .range19 => 2
  | .range16 => 3
  | .xor8A => 4
  | .xor8B => 5
  | .xor8Out => 6

def VirtualKind.ofTag : ℕ → Option VirtualKind
  | 0 => some .rowIndex
  | 1 => some .ramLive
  | 2 => some .range19
  | 3 => some .range16
  | 4 => some .xor8A
  | 5 => some .xor8B
  | 6 => some .xor8Out
  | _ => none

theorem VirtualKind.tag_of_ofTag {tag : ℕ} {kind : VirtualKind}
    (known : VirtualKind.ofTag tag = some kind) : kind.tag = tag := by
  match tag with
  | 0 | 1 | 2 | 3 | 4 | 5 | 6 =>
    cases known
    rfl
  | _ + 7 => cases known

/-- Refuse what does not convert. -/
def orRefuse {α β : Type} (f : α → Option β) (value : α) : Except Unit β :=
  match f value with
  | some converted => .ok converted
  | none => .error ()

namespace Postcard

def kind : Deserialize VirtualKind := convert (orRefuse VirtualKind.ofTag) u32

/-- The three numbers an address is written as. -/
def words : Deserialize (ℕ × ℕ × ℕ) := do
  let tag ← byte
  let a ← u32
  let b ← u32
  pure (tag, a, b)

/-- An unused field is zero. -/
def addressOfWords : ℕ × ℕ × ℕ → Option PolyAddress
  | (0, i, 0) => some (.memory i)
  | (1, i, 0) => some (.witness i)
  | (2, i, 0) => some (.setup i)
  | (3, tag, 0) => (VirtualKind.ofTag tag).map .virtual
  | (4, layer, offset) => some (.inner layer offset)
  | (5, i, 0) => some (.scratch i)
  | (6, layer, offset) => some (.cached layer offset)
  | _ => none

def address : Deserialize PolyAddress := convert (orRefuse addressOfWords) words

def coeffWords : Deserialize (ℕ × ℕ × Fr) := do
  let tag ← byte
  let slot ← u32
  let v ← fr
  pure (tag, slot, v)

def coeffOfWords : ℕ × ℕ × Fr → Option Coeff
  | (0, 0, v) => some (.literal v)
  | (1, slot, v) => if v = 0 then some (.challenge slot) else none
  | _ => none

def coeff : Deserialize Coeff := convert (orRefuse coeffOfWords) coeffWords

end Postcard

namespace Serialize

def kind : Writer VirtualKind := fun kind => u32 kind.tag

def words : Writer (ℕ × ℕ × ℕ) := fun x => written [u8 x.1, u32 x.2.1, u32 x.2.2]

def addressWords : PolyAddress → ℕ × ℕ × ℕ
  | .memory i => (0, i, 0)
  | .witness i => (1, i, 0)
  | .setup i => (2, i, 0)
  | .virtual kind => (3, kind.tag, 0)
  | .inner layer offset => (4, layer, offset)
  | .scratch i => (5, i, 0)
  | .cached layer offset => (6, layer, offset)

def address : Writer PolyAddress := fun a => words (addressWords a)

def coeffWords : Coeff → ℕ × ℕ × Fr
  | .literal v => (0, 0, v)
  | .challenge slot => (1, slot, 0)

def coeff : Writer Coeff := fun c =>
  let x := coeffWords c
  written [u8 x.1, u32 x.2.1, fr x.2.2]

end Serialize

/-- The numbers of an address are 32-bit. -/
def PolyAddress.Fits (a : PolyAddress) : Prop :=
  (Serialize.addressWords a).2.1 < 2 ^ 32 ∧ (Serialize.addressWords a).2.2 < 2 ^ 32

/-- The slot of a coefficient is 32-bit. -/
def Coeff.Fits (c : Coeff) : Prop := (Serialize.coeffWords c).2.1 < 2 ^ 32

namespace Postcard

theorem ofTag_tag (kind : VirtualKind) : VirtualKind.ofTag kind.tag = some kind := by
  cases kind <;> rfl

theorem tag_lt (kind : VirtualKind) : kind.tag < 2 ^ 32 := by
  cases kind <;> decide

theorem kind_restores : Restores kind (fun _ => True) Serialize.kind := by
  refine Restores.convert VirtualKind.tag u32_restores ?_ fun kind _ => tag_lt kind
  intro kind _
  rw [orRefuse, ofTag_tag]

theorem words_restores :
    Restores words (fun x => x.1 < 256 ∧ x.2.1 < 2 ^ 32 ∧ x.2.2 < 2 ^ 32) Serialize.words := by
  have fields : Restores words (fun x => x.1 < 256 ∧ x.2.1 < 2 ^ 32 ∧ x.2.2 < 2 ^ 32 ∧ True)
      Serialize.words := by
    apply Restores.first Prod.fst u8_restores
    intro tag
    apply Restores.next (fun x : ℕ × ℕ × ℕ => x.2.1) u32_restores
    intro a
    apply Restores.next (fun x : ℕ × ℕ × ℕ => x.2.2) u32_restores
    intro b
    apply Restores.done
    rintro ⟨_, _, _⟩ ⟨⟨rfl, rfl⟩, rfl⟩
    rfl
  exact fun x front rest fit => fields x front rest ⟨fit.1, fit.2.1, fit.2.2, trivial⟩

theorem address_restores : Restores address PolyAddress.Fits Serialize.address := by
  refine Restores.convert Serialize.addressWords words_restores ?_ ?_
  · intro a _
    cases a with
    | virtual kind =>
      simp only [orRefuse, Serialize.addressWords, addressOfWords, ofTag_tag, Option.map_some]
    | _ => rfl
  · intro a fit
    refine ⟨?_, fit⟩
    cases a <;> simp [Serialize.addressWords]

theorem coeff_restores : Restores coeff Coeff.Fits Serialize.coeff := by
  have fields : Restores coeffWords (fun x => x.1 < 256 ∧ x.2.1 < 2 ^ 32 ∧ True ∧ True)
      fun x => written [Serialize.u8 x.1, Serialize.u32 x.2.1, Serialize.fr x.2.2] := by
    apply Restores.first Prod.fst u8_restores
    intro tag
    apply Restores.next (fun x : ℕ × ℕ × Fr => x.2.1) u32_restores
    intro slot
    apply Restores.next (fun x : ℕ × ℕ × Fr => x.2.2) fr_restores
    intro v
    apply Restores.done
    rintro ⟨_, _, _⟩ ⟨⟨rfl, rfl⟩, rfl⟩
    rfl
  refine Restores.convert Serialize.coeffWords fields ?_ ?_
  · intro c _
    cases c with
    | literal v => rfl
    | challenge slot => simp only [orRefuse, Serialize.coeffWords, coeffOfWords, ↓reduceIte]
  · intro c fit
    refine ⟨?_, fit, trivial, trivial⟩
    cases c <;> simp [Serialize.coeffWords]

end Postcard

end Addresses

section Gates

/-- A gate on the wire: its tag, its split, its coefficients and its operands. -/
structure GateWords where
  tag : ℕ
  split : ℕ
  coefficients : List Coeff
  operands : List PolyAddress

namespace Postcard

/-- The operands two by two. -/
def pairs : List PolyAddress → List (PolyAddress × PolyAddress)
  | left :: right :: rest => (left, right) :: pairs rest
  | _ => []

def linearOfWords (c : List Coeff) (o : List PolyAddress) : Option GateDef :=
  if c.length = o.length + 1 then some (.linear (c.zip o) (c.getD o.length (lit 0))) else none

def affineOfWords (t : ℕ) (c : List Coeff) (o : List PolyAddress) : Option GateDef :=
  if t ≤ o.length ∧ c.length = o.length + 2 then
    some (.affineProduct ((c.take t).zip (o.take t)) (c.getD t (lit 0))
      ((c.drop (t + 1)).zip (o.drop t)) (c.getD (c.length - 1) (lit 0)))
  else none

def quadraticOfWords (t : ℕ) (c : List Coeff) (o : List PolyAddress) : Option GateDef :=
  if t ≤ o.length ∧ (o.length - t) % 2 = 0 ∧ c.length = 1 + t + (o.length - t) / 2 then
    some (.quadratic (c.getD 0 (lit 0)) (((c.drop 1).take t).zip (o.take t))
      ((c.drop (1 + t)).zip (pairs (o.drop t))))
  else none

/-- A gate of the counts its shape has. -/
def gateOfWords (x : GateWords) : Option GateDef :=
  match x.tag, x.split, x.coefficients, x.operands with
  | 0, 0, c, o => linearOfWords c o
  | 1, 0, [coeff], [left, right] => some (.product coeff left right)
  | 2, 0, [], [input, mask] => some (.maskIntoIdentity input mask)
  | 3, t, c, o => affineOfWords t c o
  | 4, 0, [], [input] => some (.treeProduct input)
  | 5, t, c, o => quadraticOfWords t c o
  | 6, 0, [], [left, right] => some (.treeCross left right)
  | _, _, _, _ => none

def gateWords : Deserialize GateWords := do
  let tag ← byte
  let split ← u32
  let coefficients ← seq coeff
  let operands ← seq address
  pure ⟨tag, split, coefficients, operands⟩

def gate : Deserialize GateDef := convert (orRefuse gateOfWords) gateWords

end Postcard

namespace Serialize

/-- A gate's tag and where its lists are split. -/
def gateTag : GateDef → ℕ × ℕ
  | .linear _ _ => (0, 0)
  | .product _ _ _ => (1, 0)
  | .maskIntoIdentity _ _ => (2, 0)
  | .affineProduct left _ _ _ => (3, left.length % 2 ^ 32)
  | .treeProduct _ => (4, 0)
  | .treeCross _ _ => (6, 0)
  | .quadratic _ terms _ => (5, terms.length % 2 ^ 32)

def gateWords (g : GateDef) : GateWords :=
  ⟨(gateTag g).1, (gateTag g).2, g.coefficients, g.operands⟩

def gate : Writer GateDef := fun g =>
  written [u8 (gateTag g).1, u32 (gateTag g).2, seq coeff g.coefficients, seq address g.operands]

end Serialize

/-- How many of a gate's operands stand before the others. -/
def GateDef.split : GateDef → ℕ
  | .affineProduct left _ _ _ => left.length
  | .quadratic _ terms _ => terms.length
  | _ => 0

/-- A gate's split is a 32-bit count, its lists are countable, and its numbers are 32-bit. -/
structure GateDef.Fits (g : GateDef) : Prop where
  split : g.split < 2 ^ 32
  counts : g.coefficients.length < 2 ^ 64 ∧ g.operands.length < 2 ^ 64
  coefficients : ∀ c ∈ g.coefficients, c.Fits
  operands : ∀ a ∈ g.operands, a.Fits

namespace Postcard

theorem pairs_flatMap (products : List (Coeff × PolyAddress × PolyAddress)) :
    pairs (products.flatMap fun term => [term.2.1, term.2.2]) =
      products.map fun term => (term.2.1, term.2.2) := by
  induction products with
  | nil => rfl
  | cons term rest ih =>
    rw [List.flatMap_cons, List.map_cons, ← ih]
    rfl

/-- Zipping the halves of pairs gives the pairs, whatever follows the first halves. -/
theorem zip_halves {α β : Type} (entries : List (α × β)) (rest : List α) :
    (entries.map Prod.fst ++ rest).zip (entries.map Prod.snd) = entries := by
  induction entries with
  | nil => exact List.zip_nil_right
  | cons entry others ih =>
    rw [List.map_cons, List.map_cons, List.cons_append, List.zip_cons_cons, ih]

theorem linearOfWords_words (terms : List (Coeff × PolyAddress)) (constant : Coeff) :
    linearOfWords (terms.map Prod.fst ++ [constant]) (terms.map Prod.snd) =
      some (.linear terms constant) := by
  rw [linearOfWords, if_pos (by simp), zip_halves]
  simp [List.getD_eq_getElem?_getD]

theorem affineOfWords_words (left right : List (Coeff × PolyAddress))
    (leftConstant rightConstant : Coeff) :
    affineOfWords left.length
        (left.map Prod.fst ++ [leftConstant] ++ (right.map Prod.fst ++ [rightConstant]))
        ((left ++ right).map Prod.snd) =
      some (.affineProduct left leftConstant right rightConstant) := by
  have firsts : (left.map Prod.fst).length = left.length := List.length_map _
  have seconds : (left.map Prod.snd).length = left.length := List.length_map _
  have upper : (left.map Prod.fst ++ [leftConstant] ++ (right.map Prod.fst ++ [rightConstant])).drop
      (left.length + 1) = right.map Prod.fst ++ [rightConstant] := by
    apply List.drop_left'
    rw [List.length_append, firsts, List.length_singleton]
  have lower : (left.map Prod.fst ++ [leftConstant] ++ (right.map Prod.fst ++ [rightConstant])).take
      left.length = left.map Prod.fst := by
    rw [List.append_assoc]
    exact List.take_left' firsts
  have middle : (left.map Prod.fst ++ [leftConstant] ++ (right.map Prod.fst ++ [rightConstant])).getD
      left.length (lit 0) = leftConstant := by
    simp [List.getD_eq_getElem?_getD]
  have last : (left.map Prod.fst ++ [leftConstant] ++ (right.map Prod.fst ++ [rightConstant])).getD
      ((left.map Prod.fst ++ [leftConstant] ++
        (right.map Prod.fst ++ [rightConstant])).length - 1) (lit 0) = rightConstant := by
    rw [← List.append_assoc]
    simp [List.getD_eq_getElem?_getD]
  have counts : left.length ≤ ((left ++ right).map Prod.snd).length ∧
      (left.map Prod.fst ++ [leftConstant] ++ (right.map Prod.fst ++ [rightConstant])).length =
        ((left ++ right).map Prod.snd).length + 2 := by
    simp only [List.length_append, List.length_map, List.length_singleton]
    omega
  rw [affineOfWords, if_pos counts, upper, lower, middle, last, List.map_append,
    List.take_left' seconds, List.drop_left' seconds, zip_halves, ← List.append_nil (left.map _),
    zip_halves]

theorem quadraticOfWords_words (constant : Coeff) (terms : List (Coeff × PolyAddress))
    (products : List (Coeff × PolyAddress × PolyAddress)) :
    quadraticOfWords terms.length (constant :: (terms.map Prod.fst ++ products.map Prod.fst))
        (terms.map Prod.snd ++ products.flatMap fun term => [term.2.1, term.2.2]) =
      some (.quadratic constant terms products) := by
  have firsts : (terms.map Prod.fst).length = terms.length := List.length_map _
  have seconds : (terms.map Prod.snd).length = terms.length := List.length_map _
  have doubled : (products.flatMap fun term => [term.2.1, term.2.2]).length =
      2 * products.length := by
    simp [List.length_flatMap, mul_comm]
  have counts : terms.length ≤
        (terms.map Prod.snd ++ products.flatMap fun term => [term.2.1, term.2.2]).length ∧
      ((terms.map Prod.snd ++ products.flatMap fun term => [term.2.1, term.2.2]).length -
        terms.length) % 2 = 0 ∧
      (constant :: (terms.map Prod.fst ++ products.map Prod.fst)).length = 1 + terms.length +
        ((terms.map Prod.snd ++ products.flatMap fun term => [term.2.1, term.2.2]).length -
          terms.length) / 2 := by
    rw [List.length_append, doubled, seconds, List.length_cons, List.length_append, List.length_map,
      List.length_map]
    omega
  have second : (products.map fun term => (term.2.1, term.2.2)) = products.map Prod.snd := rfl
  rw [quadraticOfWords, if_pos counts, List.drop_one, List.tail_cons, List.take_left' firsts,
    List.take_left' seconds, List.drop_left' seconds, pairs_flatMap, second, Nat.add_comm 1,
    List.drop_succ_cons, List.drop_left' firsts, ← List.append_nil (terms.map Prod.fst),
    zip_halves, ← List.append_nil (products.map Prod.fst), zip_halves]
  rfl

/-- A gate is what its words convert to. -/
theorem gateOfWords_gateWords {g : GateDef} (fit : g.Fits) :
    gateOfWords (Serialize.gateWords g) = some g := by
  have split := fit.split
  cases g with
  | linear terms constant => exact linearOfWords_words terms constant
  | product coeff left right => rfl
  | maskIntoIdentity input mask => rfl
  | affineProduct left leftConstant right rightConstant =>
    have split : left.length % 2 ^ 32 = left.length := Nat.mod_eq_of_lt split
    simp only [Serialize.gateWords, Serialize.gateTag, split]
    exact affineOfWords_words left right leftConstant rightConstant
  | treeProduct input => rfl
  | treeCross left right => rfl
  | quadratic constant terms products =>
    have split : terms.length % 2 ^ 32 = terms.length := Nat.mod_eq_of_lt split
    simp only [Serialize.gateWords, Serialize.gateTag, split]
    exact quadraticOfWords_words constant terms products

theorem gateTag_lt (g : GateDef) :
    (Serialize.gateTag g).1 < 256 ∧ (Serialize.gateTag g).2 < 2 ^ 32 := by
  cases g <;> simp [Serialize.gateTag] <;> omega

theorem gate_restores : Restores gate GateDef.Fits Serialize.gate := by
  have fields : Restores gateWords (fun x => x.tag < 256 ∧ x.split < 2 ^ 32 ∧
      (x.coefficients.length < 2 ^ 64 ∧ ∀ c ∈ x.coefficients, c.Fits) ∧
      (x.operands.length < 2 ^ 64 ∧ ∀ a ∈ x.operands, a.Fits) ∧ True)
      fun x => written [Serialize.u8 x.tag, Serialize.u32 x.split,
        Serialize.seq Serialize.coeff x.coefficients,
        Serialize.seq Serialize.address x.operands] := by
    apply Restores.first GateWords.tag u8_restores
    intro tag
    apply Restores.next GateWords.split u32_restores
    intro split
    apply Restores.next GateWords.coefficients (seq_restores coeff_restores)
    intro coefficients
    apply Restores.next GateWords.operands (seq_restores address_restores)
    intro operands
    apply Restores.done
    rintro ⟨_, _, _, _⟩ ⟨⟨⟨rfl, rfl⟩, rfl⟩, rfl⟩
    rfl
  refine Restores.convert Serialize.gateWords fields ?_ ?_
  · intro g fit
    rw [orRefuse, gateOfWords_gateWords fit]
  · intro g fit
    obtain ⟨coefficients, operands⟩ := fit.counts
    exact ⟨(gateTag_lt g).1, (gateTag_lt g).2, ⟨coefficients, fit.coefficients⟩,
      ⟨operands, fit.operands⟩, trivial⟩

end Postcard

end Gates

section Structures

/-- The bytes of a name are countable. -/
def nameFits (s : String) : Prop := s.toUTF8.data.toList.length < 2 ^ 64

/-- A list is countable and its entries fit. -/
def allFit {α : Type} (fits : α → Prop) (values : List α) : Prop :=
  values.length < 2 ^ 64 ∧ ∀ value ∈ values, fits value

def CachedEntry.Fits (x : CachedEntry) : Prop := nameFits x.name ∧ x.address.Fits ∧ x.gate.Fits

def ProducingEntry.Fits (x : ProducingEntry) : Prop :=
  x.relation < 2 ^ 32 ∧ x.output.Fits ∧ x.gate.Fits

def EnforcingEntry.Fits (x : EnforcingEntry) : Prop := x.relation < 2 ^ 32 ∧ x.gate.Fits

def LayerSpec.Fits (x : LayerSpec) : Prop :=
  x.numVars < 2 ^ 32 ∧ x.width < 2 ^ 32 ∧ allFit CachedEntry.Fits x.cached ∧
    allFit ProducingEntry.Fits x.producing ∧ allFit EnforcingEntry.Fits x.enforcing

def Relation.Fits (x : Relation) : Prop :=
  nameFits x.name ∧ (∀ slot, x.output = some slot → slot < 2 ^ 32) ∧ x.gate.Fits

def LookupExpr.Fits (x : LookupExpr) : Prop :=
  nameFits x.name ∧ x.channel < 2 ^ 32 ∧ x.selector.Fits ∧ allFit GateDef.Fits x.tuple

def ScratchSlot.Fits (x : ScratchSlot) : Prop := nameFits x.name ∧ x.address.Fits

/-- Every number of an artifact is its type's and every list is countable. -/
structure CircuitArtifact.Fits (x : CircuitArtifact) : Prop where
  formatVersion : x.formatVersion < 2 ^ 32
  coefficientEncoding : x.coefficientEncoding < 2 ^ 32
  traceVars : x.traceVars < 2 ^ 32
  memory : allFit nameFits x.memory
  witness : allFit nameFits x.witness
  setup : allFit nameFits x.setup
  virtuals : allFit (fun entry => nameFits entry.2) x.virtuals
  layers : allFit LayerSpec.Fits x.layers
  relations : allFit Relation.Fits x.relations
  lookups : allFit LookupExpr.Fits x.lookups
  scratch : allFit ScratchSlot.Fits x.scratch
  outputs : allFit PolyAddress.Fits x.outputs
  padding : x.padding.row.length < 2 ^ 64

namespace Postcard

def cachedEntry : Deserialize CachedEntry := do
  let name ← name
  let address ← address
  let gate ← gate
  pure ⟨name, address, gate⟩

def producingEntry : Deserialize ProducingEntry := do
  let relation ← u32
  let output ← address
  let gate ← gate
  pure ⟨relation, output, gate⟩

def enforcingEntry : Deserialize EnforcingEntry := do
  let relation ← u32
  let gate ← gate
  pure ⟨relation, gate⟩

def layerSpec : Deserialize LayerSpec := do
  let halving ← bool
  let numVars ← u32
  let width ← u32
  let cached ← seq cachedEntry
  let producing ← seq producingEntry
  let enforcing ← seq enforcingEntry
  pure ⟨halving, numVars, width, cached, producing, enforcing⟩

def relation : Deserialize Relation := do
  let name ← name
  let output ← option u32
  let gate ← gate
  pure ⟨name, output, gate⟩

def lookupExpr : Deserialize LookupExpr := do
  let name ← name
  let channel ← u32
  let selector ← address
  let tuple ← seq gate
  pure ⟨name, channel, selector, tuple⟩

def scratchSlot : Deserialize ScratchSlot := do
  let name ← name
  let address ← address
  pure ⟨name, address⟩

def virtualTable : Deserialize (VirtualKind × String) := do
  let kind ← kind
  let name ← name
  pure (kind, name)

def padding : Deserialize Padding := do
  let row ← seq fr
  let zeroRowValid ← bool
  pure ⟨row, zeroRowValid⟩

def artifact : Deserialize CircuitArtifact := do
  let formatVersion ← u32
  let coefficientEncoding ← u32
  let traceVars ← u32
  let memory ← seq name
  let witness ← seq name
  let setup ← seq name
  let virtuals ← seq virtualTable
  let layers ← seq layerSpec
  let relations ← seq relation
  let lookups ← seq lookupExpr
  let scratch ← seq scratchSlot
  let outputs ← seq address
  let padding ← padding
  pure ⟨formatVersion, coefficientEncoding, traceVars, memory, witness, setup, virtuals, layers,
    relations, lookups, scratch, outputs, padding⟩

end Postcard

namespace Serialize

def cachedEntry : Writer CachedEntry := fun x =>
  written [name x.name, address x.address, gate x.gate]

def producingEntry : Writer ProducingEntry := fun x =>
  written [u32 x.relation, address x.output, gate x.gate]

def enforcingEntry : Writer EnforcingEntry := fun x => written [u32 x.relation, gate x.gate]

def layerSpec : Writer LayerSpec := fun x =>
  written [bool x.halving, u32 x.numVars, u32 x.width, seq cachedEntry x.cached,
    seq producingEntry x.producing, seq enforcingEntry x.enforcing]

def relation : Writer Relation := fun x =>
  written [name x.name, option u32 x.output, gate x.gate]

def lookupExpr : Writer LookupExpr := fun x =>
  written [name x.name, u32 x.channel, address x.selector, seq gate x.tuple]

def scratchSlot : Writer ScratchSlot := fun x => written [name x.name, address x.address]

def virtualTable : Writer (VirtualKind × String) := fun x => written [kind x.1, name x.2]

def padding : Writer Padding := fun x => written [seq fr x.row, bool x.zeroRowValid]

def artifact : Writer CircuitArtifact := fun x =>
  written [u32 x.formatVersion, u32 x.coefficientEncoding, u32 x.traceVars, seq name x.memory,
    seq name x.witness, seq name x.setup, seq virtualTable x.virtuals, seq layerSpec x.layers,
    seq relation x.relations, seq lookupExpr x.lookups, seq scratchSlot x.scratch,
    seq address x.outputs, padding x.padding]

end Serialize

namespace CircuitArtifact

/-- The encoding. -/
def toBytes (x : CircuitArtifact) : Option (List UInt8) := Serialize.artifact x

/-- Decode an artifact of this format's version from its one encoding. -/
def fromBytes (bytes : List UInt8) : Except Unit CircuitArtifact := do
  let (version, _) ← Postcard.u32 bytes
  if version ≠ FORMAT_VERSION then .error ()
  else do
    let (x, _) ← Postcard.artifact bytes
    if x.toBytes = some bytes then .ok x else .error ()

end CircuitArtifact

namespace Postcard

theorem cachedEntry_restores : Restores cachedEntry CachedEntry.Fits Serialize.cachedEntry := by
  have fields : Restores cachedEntry
      (fun x => nameFits x.name ∧ x.address.Fits ∧ x.gate.Fits ∧ True) Serialize.cachedEntry := by
    unfold cachedEntry Serialize.cachedEntry
    apply Restores.first CachedEntry.name name_restores
    intro name
    apply Restores.next CachedEntry.address address_restores
    intro address
    apply Restores.next CachedEntry.gate gate_restores
    intro gate
    apply Restores.done
    rintro ⟨_, _, _⟩ ⟨⟨rfl, rfl⟩, rfl⟩
    rfl
  exact fun x front rest fit => fields x front rest ⟨fit.1, fit.2.1, fit.2.2, trivial⟩

theorem producingEntry_restores :
    Restores producingEntry ProducingEntry.Fits Serialize.producingEntry := by
  have fields : Restores producingEntry
      (fun x => x.relation < 2 ^ 32 ∧ x.output.Fits ∧ x.gate.Fits ∧ True)
      Serialize.producingEntry := by
    unfold producingEntry Serialize.producingEntry
    apply Restores.first ProducingEntry.relation u32_restores
    intro relation
    apply Restores.next ProducingEntry.output address_restores
    intro output
    apply Restores.next ProducingEntry.gate gate_restores
    intro gate
    apply Restores.done
    rintro ⟨_, _, _⟩ ⟨⟨rfl, rfl⟩, rfl⟩
    rfl
  exact fun x front rest fit => fields x front rest ⟨fit.1, fit.2.1, fit.2.2, trivial⟩

theorem enforcingEntry_restores :
    Restores enforcingEntry EnforcingEntry.Fits Serialize.enforcingEntry := by
  have fields : Restores enforcingEntry (fun x => x.relation < 2 ^ 32 ∧ x.gate.Fits ∧ True)
      Serialize.enforcingEntry := by
    unfold enforcingEntry Serialize.enforcingEntry
    apply Restores.first EnforcingEntry.relation u32_restores
    intro relation
    apply Restores.next EnforcingEntry.gate gate_restores
    intro gate
    apply Restores.done
    rintro ⟨_, _⟩ ⟨rfl, rfl⟩
    rfl
  exact fun x front rest fit => fields x front rest ⟨fit.1, fit.2, trivial⟩

theorem layerSpec_restores : Restores layerSpec LayerSpec.Fits Serialize.layerSpec := by
  have fields : Restores layerSpec (fun x => True ∧ x.numVars < 2 ^ 32 ∧ x.width < 2 ^ 32 ∧
      allFit CachedEntry.Fits x.cached ∧ allFit ProducingEntry.Fits x.producing ∧
      allFit EnforcingEntry.Fits x.enforcing ∧ True) Serialize.layerSpec := by
    unfold layerSpec Serialize.layerSpec
    apply Restores.first LayerSpec.halving bool_restores
    intro halving
    apply Restores.next LayerSpec.numVars u32_restores
    intro numVars
    apply Restores.next LayerSpec.width u32_restores
    intro width
    apply Restores.next LayerSpec.cached (seq_restores cachedEntry_restores)
    intro cached
    apply Restores.next LayerSpec.producing (seq_restores producingEntry_restores)
    intro producing
    apply Restores.next LayerSpec.enforcing (seq_restores enforcingEntry_restores)
    intro enforcing
    apply Restores.done
    rintro ⟨_, _, _, _, _, _⟩ ⟨⟨⟨⟨⟨rfl, rfl⟩, rfl⟩, rfl⟩, rfl⟩, rfl⟩
    rfl
  rintro x front rest ⟨numVars, width, cached, producing, enforcing⟩
  exact fields x front rest ⟨trivial, numVars, width, cached, producing, enforcing, trivial⟩

theorem relation_restores : Restores relation Relation.Fits Serialize.relation := by
  have fields : Restores relation (fun x => nameFits x.name ∧
      (∀ slot, x.output = some slot → slot < 2 ^ 32) ∧ x.gate.Fits ∧ True) Serialize.relation := by
    unfold relation Serialize.relation
    apply Restores.first Relation.name name_restores
    intro name
    apply Restores.next Relation.output (option_restores u32_restores)
    intro output
    apply Restores.next Relation.gate gate_restores
    intro gate
    apply Restores.done
    rintro ⟨_, _, _⟩ ⟨⟨rfl, rfl⟩, rfl⟩
    rfl
  exact fun x front rest fit => fields x front rest ⟨fit.1, fit.2.1, fit.2.2, trivial⟩

theorem lookupExpr_restores : Restores lookupExpr LookupExpr.Fits Serialize.lookupExpr := by
  have fields : Restores lookupExpr (fun x => nameFits x.name ∧ x.channel < 2 ^ 32 ∧
      x.selector.Fits ∧ allFit GateDef.Fits x.tuple ∧ True) Serialize.lookupExpr := by
    unfold lookupExpr Serialize.lookupExpr
    apply Restores.first LookupExpr.name name_restores
    intro name
    apply Restores.next LookupExpr.channel u32_restores
    intro channel
    apply Restores.next LookupExpr.selector address_restores
    intro selector
    apply Restores.next LookupExpr.tuple (seq_restores gate_restores)
    intro tuple
    apply Restores.done
    rintro ⟨_, _, _, _⟩ ⟨⟨⟨rfl, rfl⟩, rfl⟩, rfl⟩
    rfl
  rintro x front rest ⟨name, channel, selector, tuple⟩
  exact fields x front rest ⟨name, channel, selector, tuple, trivial⟩

theorem scratchSlot_restores : Restores scratchSlot ScratchSlot.Fits Serialize.scratchSlot := by
  have fields : Restores scratchSlot (fun x => nameFits x.name ∧ x.address.Fits ∧ True)
      Serialize.scratchSlot := by
    unfold scratchSlot Serialize.scratchSlot
    apply Restores.first ScratchSlot.name name_restores
    intro name
    apply Restores.next ScratchSlot.address address_restores
    intro address
    apply Restores.done
    rintro ⟨_, _⟩ ⟨rfl, rfl⟩
    rfl
  exact fun x front rest fit => fields x front rest ⟨fit.1, fit.2, trivial⟩

theorem virtualTable_restores :
    Restores virtualTable (fun x => nameFits x.2) Serialize.virtualTable := by
  have fields : Restores virtualTable (fun x => True ∧ nameFits x.2 ∧ True)
      Serialize.virtualTable := by
    unfold virtualTable Serialize.virtualTable
    apply Restores.first Prod.fst kind_restores
    intro kind
    apply Restores.next (fun x : VirtualKind × String => x.2) name_restores
    intro name
    apply Restores.done
    rintro ⟨_, _⟩ ⟨rfl, rfl⟩
    rfl
  exact fun x front rest fit => fields x front rest ⟨trivial, fit, trivial⟩

theorem padding_restores : Restores padding (fun x => x.row.length < 2 ^ 64) Serialize.padding := by
  have fields : Restores padding (fun x => (x.row.length < 2 ^ 64 ∧ ∀ v ∈ x.row, True) ∧ True ∧ True)
      Serialize.padding := by
    unfold padding Serialize.padding
    apply Restores.first Padding.row (seq_restores fr_restores)
    intro row
    apply Restores.next Padding.zeroRowValid bool_restores
    intro zeroRowValid
    apply Restores.done
    rintro ⟨_, _⟩ ⟨rfl, rfl⟩
    rfl
  exact fun x front rest fit => fields x front rest ⟨⟨fit, fun _ _ => trivial⟩, trivial, trivial⟩

theorem artifact_restores : Restores artifact CircuitArtifact.Fits Serialize.artifact := by
  have fields : Restores artifact (fun x => x.formatVersion < 2 ^ 32 ∧
      x.coefficientEncoding < 2 ^ 32 ∧ x.traceVars < 2 ^ 32 ∧ allFit nameFits x.memory ∧
      allFit nameFits x.witness ∧ allFit nameFits x.setup ∧
      allFit (fun entry => nameFits entry.2) x.virtuals ∧ allFit LayerSpec.Fits x.layers ∧
      allFit Relation.Fits x.relations ∧ allFit LookupExpr.Fits x.lookups ∧
      allFit ScratchSlot.Fits x.scratch ∧ allFit PolyAddress.Fits x.outputs ∧
      x.padding.row.length < 2 ^ 64 ∧ True) Serialize.artifact := by
    unfold artifact Serialize.artifact
    apply Restores.first CircuitArtifact.formatVersion u32_restores
    intro formatVersion
    apply Restores.next CircuitArtifact.coefficientEncoding u32_restores
    intro coefficientEncoding
    apply Restores.next CircuitArtifact.traceVars u32_restores
    intro traceVars
    apply Restores.next CircuitArtifact.memory (seq_restores name_restores)
    intro memory
    apply Restores.next CircuitArtifact.witness (seq_restores name_restores)
    intro witness
    apply Restores.next CircuitArtifact.setup (seq_restores name_restores)
    intro setup
    apply Restores.next CircuitArtifact.virtuals (seq_restores virtualTable_restores)
    intro virtuals
    apply Restores.next CircuitArtifact.layers (seq_restores layerSpec_restores)
    intro layers
    apply Restores.next CircuitArtifact.relations (seq_restores relation_restores)
    intro relations
    apply Restores.next CircuitArtifact.lookups (seq_restores lookupExpr_restores)
    intro lookups
    apply Restores.next CircuitArtifact.scratch (seq_restores scratchSlot_restores)
    intro scratch
    apply Restores.next CircuitArtifact.outputs (seq_restores address_restores)
    intro outputs
    apply Restores.next CircuitArtifact.padding padding_restores
    intro padding
    apply Restores.done
    rintro ⟨⟩ fixed
    simp only [and_assoc] at fixed
    obtain ⟨rfl, rfl, rfl, rfl, rfl, rfl, rfl, rfl, rfl, rfl, rfl, rfl, rfl⟩ := fixed
    rfl
  intro x front rest fit
  exact fields x front rest ⟨fit.formatVersion, fit.coefficientEncoding, fit.traceVars, fit.memory,
    fit.witness, fit.setup, fit.virtuals, fit.layers, fit.relations, fit.lookups, fit.scratch,
    fit.outputs, fit.padding, trivial⟩

end Postcard

end Structures

section Total

namespace Serialize

theorem seq_isSome {α : Type} {item : Writer α} {values : List α}
    (items : ∀ value, (item value).isSome) : (seq item values).isSome := by
  rw [seq, written_cons_isSome, written_singleton, writeEach_isSome]
  exact ⟨rfl, fun value _ => items value⟩

theorem name_isSome (s : String) : (name s).isSome := rfl

theorem option_isSome {α : Type} {item : Writer α} {value : Option α}
    (items : ∀ value, (item value).isSome) : (option item value).isSome := by
  cases value with
  | none => rfl
  | some inner =>
    rw [option, written_cons_isSome, written_singleton]
    exact ⟨rfl, items inner⟩

theorem gate_isSome (g : GateDef) : (gate g).isSome := by
  simp only [gate, written_cons_isSome]
  exact ⟨rfl, rfl, seq_isSome fun _ => rfl, seq_isSome fun _ => rfl, rfl⟩

theorem cachedEntry_isSome (x : CachedEntry) : (cachedEntry x).isSome := by
  simp only [cachedEntry, written_cons_isSome]
  exact ⟨rfl, rfl, gate_isSome _, rfl⟩

theorem producingEntry_isSome (x : ProducingEntry) : (producingEntry x).isSome := by
  simp only [producingEntry, written_cons_isSome]
  exact ⟨rfl, rfl, gate_isSome _, rfl⟩

theorem enforcingEntry_isSome (x : EnforcingEntry) : (enforcingEntry x).isSome := by
  simp only [enforcingEntry, written_cons_isSome]
  exact ⟨rfl, gate_isSome _, rfl⟩

theorem layerSpec_isSome (x : LayerSpec) : (layerSpec x).isSome := by
  simp only [layerSpec, written_cons_isSome]
  exact ⟨rfl, rfl, rfl, seq_isSome cachedEntry_isSome, seq_isSome producingEntry_isSome,
    seq_isSome enforcingEntry_isSome, rfl⟩

theorem relation_isSome (x : Relation) : (relation x).isSome := by
  simp only [relation, written_cons_isSome]
  exact ⟨rfl, option_isSome fun _ => rfl, gate_isSome _, rfl⟩

theorem lookupExpr_isSome (x : LookupExpr) : (lookupExpr x).isSome := by
  simp only [lookupExpr, written_cons_isSome]
  exact ⟨rfl, rfl, rfl, seq_isSome gate_isSome, rfl⟩

theorem padding_isSome (x : Padding) : (padding x).isSome := by
  simp only [padding, written_cons_isSome]
  exact ⟨seq_isSome fun _ => rfl, rfl, rfl⟩

/-- The encoder never refuses. -/
theorem artifact_isSome (x : CircuitArtifact) : (artifact x).isSome := by
  simp only [artifact, written_cons_isSome]
  exact ⟨rfl, rfl, rfl, seq_isSome name_isSome, seq_isSome name_isSome, seq_isSome name_isSome,
    seq_isSome fun _ => rfl, seq_isSome layerSpec_isSome, seq_isSome relation_isSome,
    seq_isSome lookupExpr_isSome, seq_isSome fun _ => rfl, seq_isSome fun _ => rfl,
    padding_isSome _, rfl⟩

end Serialize

end Total

namespace CircuitArtifact

/-- An artifact this format's decoder reads back from its encoding. -/
def Decodes (x : CircuitArtifact) : Prop :=
  ∃ bytes, x.toBytes = some bytes ∧ fromBytes bytes = .ok x

theorem toBytes_isSome (x : CircuitArtifact) : x.toBytes.isSome := Serialize.artifact_isSome x

theorem fromBytes_ok {bytes : List UInt8} {x : CircuitArtifact} :
    fromBytes bytes = .ok x ↔ x.Decodes ∧ x.toBytes = some bytes := by
  constructor
  · intro decoded
    have canonical : x.toBytes = some bytes := by
      simp only [fromBytes, bind_ok] at decoded
      obtain ⟨version, -, decoded⟩ := decoded
      by_cases foreign : version.1 ≠ FORMAT_VERSION
      · rw [if_pos foreign] at decoded
        cases decoded
      · rw [if_neg foreign, bind_ok] at decoded
        obtain ⟨found, -, decoded⟩ := decoded
        by_cases same : found.1.toBytes = some bytes
        · rw [if_pos same] at decoded
          cases decoded
          exact same
        · rw [if_neg same] at decoded
          cases decoded
    exact ⟨⟨bytes, canonical, decoded⟩, canonical⟩
  · rintro ⟨⟨other, wrote, decoded⟩, same⟩
    rw [same] at wrote
    cases wrote
    exact decoded

/-- An artifact of this format whose numbers fit decodes. -/
theorem decodes_of_fits {x : CircuitArtifact} (fits : x.Fits)
    (version : x.formatVersion = FORMAT_VERSION) : x.Decodes := by
  obtain ⟨bytes, wrote⟩ := Option.isSome_iff_exists.mp (toBytes_isSome x)
  refine ⟨bytes, wrote, ?_⟩
  obtain ⟨front, word, others, -, rfl⟩ := written_cons_eq_some.mp wrote
  have read : Postcard.artifact (front ++ others) = .ok (x, []) := by
    have whole := Postcard.artifact_restores x (front ++ others) [] fits wrote
    rwa [List.append_nil] at whole
  have header : Postcard.u32 (front ++ others) = .ok (FORMAT_VERSION, others) := by
    rw [Postcard.u32_restores x.formatVersion front others fits.formatVersion word, version]
  simp only [fromBytes, bind_ok]
  refine ⟨_, header, ?_⟩
  rw [if_neg (not_not.mpr rfl), bind_ok]
  exact ⟨_, read, if_pos wrote⟩

end CircuitArtifact

end Apogee
