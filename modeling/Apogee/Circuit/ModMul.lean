import Apogee.Circuit.Delegation

/-! # The modular multiplication family

One product of 256-bit values a row, modulo one of four fixed moduli. The limb
products and the quotient's are matched place by place through signed carries,
and each value is shown below the modulus by a chain of borrows.
-/

namespace Apogee.ModMul

open Delegation Gadgets

/-- A value's limbs: eight words, low first. -/
def limbs : ℕ := 8

def secp256k1P : ℕ := 1
def secp256k1N : ℕ := 2
def bn254P : ℕ := 3
def bn254R : ℕ := 4
/-- The modulus codes, in selector order. -/
def codes : List ℕ := [secp256k1P, secp256k1N, bn254P, bn254R]

/-- The moduli, by their limbs, in the codes' order. -/
def moduli : List (List ℕ) :=
  [[0xfffffc2f, 0xfffffffe, 0xffffffff, 0xffffffff, 0xffffffff, 0xffffffff, 0xffffffff,
      0xffffffff],
    [0xd0364141, 0xbfd25e8c, 0xaf48a03b, 0xbaaedce6, 0xfffffffe, 0xffffffff, 0xffffffff,
      0xffffffff],
    [0xd87cfd47, 0x3c208c16, 0x6871ca8d, 0x97816a91, 0x8181585d, 0xb85045b6, 0xe131a029,
      0x30644e72],
    [0xf0000001, 0x43e1f593, 0x79b97091, 0x2833e848, 0x8181585d, 0xb85045b6, 0xe131a029,
      0x30644e72]]

/-- A limb of a modulus. -/
def modulusLimb (i k : ℕ) : ℕ := (moduli.getD i []).getD k 0

/-- The limbs a code names, if it names a modulus. -/
def modulus (code : ℕ) : Option (List ℕ) := (codes.zip moduli).lookup code

def selectorWord : ℕ := 0
def aWord : ℕ := selectorWord + 1
def bWord : ℕ := aWord + limbs
/-- The first word of the result, which alone the call writes. -/
def outWord : ℕ := bWord + limbs

def frameWords : ℕ := outWord + limbs
def frameBytes : ℕ := 4 * frameWords

/-- The places of the limb identity. -/
def positions : ℕ := 2 * limbs - 1
/-- Its carries: one out of every place but the last. -/
def carries : ℕ := positions - 1
/-- The width of a carry's committed value. -/
def carryBits : ℕ := 37

def w (i : ℕ) : PolyAddress := .witness i

/-- The three values: name, first word and the field their words are read from. -/
def values : List (String × ℕ × ℕ) :=
  [("a", aWord, wordReadValue), ("b", bWord, wordReadValue), ("out", outWord, wordWriteValue)]

def baseAt : ℕ := gapChunks * frameWords
def selectorsAt : ℕ := baseAt + 4
def moduliAt : ℕ := selectorsAt + codes.length
/-- A value's columns: its words' high halves, its differences, their high halves
and its borrows. -/
def valueColumns : ℕ := 4 * limbs
def valueBlock (v : ℕ) : ℕ := moduliAt + limbs + v * valueColumns
def quotientAt : ℕ := valueBlock values.length
def carriesAt : ℕ := quotientAt + 2 * limbs
/-- A carry's columns: its committed value and its chunks. -/
def carryColumns : ℕ := 1 + gapChunks
def multiplicityAt : ℕ := carriesAt + carryColumns * carries

def baseLow : PolyAddress := w baseAt
def baseRoom : PolyAddress := w (baseAt + 2)
def selector (i : ℕ) : PolyAddress := w (selectorsAt + i)
def mLimb (k : ℕ) : PolyAddress := w (moduliAt + k)
def valueHi (v k : ℕ) : PolyAddress := w (valueBlock v + k)
def diff (v i : ℕ) : PolyAddress := w (valueBlock v + limbs + i)
def diffHi (v i : ℕ) : PolyAddress := w (valueBlock v + 2 * limbs + i)
def borrowBit (v i : ℕ) : PolyAddress := w (valueBlock v + 3 * limbs + i)
def qLimb (i : ℕ) : PolyAddress := w (quotientAt + i)
def qHi (i : ℕ) : PolyAddress := w (quotientAt + limbs + i)
def carry (k : ℕ) : PolyAddress := w (carriesAt + carryColumns * k)
def carryChunk (k j : ℕ) : PolyAddress := w (carriesAt + carryColumns * k + 1 + j)
def multiplicityColumn : PolyAddress := w multiplicityAt

/-- The selectors' gates: each boolean, the one the frame names, one a live row,
and the selected modulus's limbs. -/
def selectorGates : List (String × GateDef) :=
  (codes.mapIdx fun i code => ("selector" ++ toString code ++ "_boolean", booleanity (selector i))) ++
  [("selector_rule", linear ((lit 1, word selectorWord wordReadValue) ::
      codes.mapIdx fun i code => (neg code, selector i))),
    ("one_modulus_a_live_row", linear ((codes.mapIdx fun i _ => (lit 1, selector i)) ++
      [(neg 1, live)]))] ++
  (List.range limbs).map fun k => ("m_limb" ++ toString k ++ "_rule",
    linear ((lit 1, mLimb k) ::
      moduli.mapIdx fun i modulus => (neg (modulus.getD k 0), selector i)))

/-- The signed carry out of a place; the last place has none. -/
def carryTerms (k : ℕ) : List (Coeff × PolyAddress) :=
  if k < carries then [(lit 1, carry k), (neg (2 ^ (carryBits - 1)), live)] else []

/-- The carry out of a place in the place's own equation, `2^32` times negated. -/
def carriedTerms (k : ℕ) : List (Coeff × PolyAddress) :=
  if k < carries then
    [(neg (2 ^ 32), carry k), (lit (2 ^ (carryBits - 1) * 2 ^ 32), live)] else []

/-- The limb identity `a·b = q·m + out`, place by place. -/
def productGates : List (String × GateDef) :=
  (List.range positions).map fun k => ("limb" ++ toString k,
    quadratic
      ((if k < limbs then [(neg 1, word (outWord + k) wordWriteValue)] else []) ++
        (if 0 < k then carryTerms (k - 1) else []) ++ carriedTerms k)
      ((List.range limbs).flatMap fun i =>
        if i ≤ k ∧ k - i < limbs then
          [(lit 1, word (aWord + i) wordReadValue, word (bWord + (k - i)) wordReadValue),
            (neg 1, qLimb i, mLimb (k - i))]
        else []))

/-- A value's chain of borrows against the modulus. -/
def belowModulusGates (name : String) (first field v : ℕ) : List (String × GateDef) :=
  ((List.range limbs).map fun i =>
    (name ++ "_borrow" ++ toString i ++ "_boolean", booleanity (borrowBit v i))) ++
  ((List.range limbs).map fun i => (name ++ "_canonical" ++ toString i,
    linear ([(lit 1, word (first + i) field), (neg 1, mLimb i), (lit (2 ^ 32), borrowBit v i)] ++
      (if 0 < i then [(neg 1, borrowBit v (i - 1))] else []) ++ [(neg 1, diff v i)]))) ++
  [(name ++ "_below_modulus", linear [(lit 1, live), (neg 1, borrowBit v (limbs - 1))])]

/-- Everything the family adds beside its frame. -/
def gates : List (String × GateDef) :=
  writesBack outWord ++ selectorGates ++
    (values.mapIdx fun v value =>
      belowModulusGates value.1 value.2.1 value.2.2 v).flatten ++ productGates

/-- The bounds of the values' words and differences. -/
def valueLookups : List LookupExpr :=
  (values.mapIdx fun v value => (List.range limbs).flatMap fun k =>
    range32 (value.1 ++ toString k) live (word (value.2.1 + k) value.2.2) (valueHi v k) ++
      range32 (value.1 ++ "_diff" ++ toString k) live (diff v k) (diffHi v k)).flatten

/-- The bounds of the quotient's limbs. -/
def quotientLookups : List LookupExpr :=
  (List.range limbs).flatMap fun k => range32 ("q" ++ toString k) live (qLimb k) (qHi k)

/-- The bounds of the carries. -/
def carryLookups : List LookupExpr :=
  (List.range carries).flatMap fun k =>
    boundChunked ("carry" ++ toString k) [(lit 1, carry k)]
      ((List.range gapChunks).map (carryChunk k)) carryBits live (lit 0)

def witnessNames : List String :=
  frameNamesRange16 frameWords ++ (codes.map fun code => "selector" ++ toString code) ++
    ((List.range limbs).map fun k => "m_limb" ++ toString k) ++
    (values.flatMap fun value =>
      ((List.range limbs).map fun k => value.1 ++ toString k ++ "_hi") ++
      ((List.range limbs).map fun i => value.1 ++ "_diff" ++ toString i) ++
      ((List.range limbs).map fun i => value.1 ++ "_diff" ++ toString i ++ "_hi") ++
      (List.range limbs).map fun i => value.1 ++ "_borrow" ++ toString i) ++
    ((List.range limbs).map fun k => "q_limb" ++ toString k) ++
    ((List.range limbs).map fun k => "q_limb" ++ toString k ++ "_hi") ++
    ((List.range carries).flatMap fun k => ("carry" ++ toString k) ::
      (List.range gapChunks).map fun j => "carry" ++ toString k ++ "_c" ++ toString j) ++
    ["range16_multiplicity"]

/-- The circuit before assembly. -/
def body : Frame.Body where
  memory := memoryNames frameWords
  witness := witnessNames
  setup := []
  virtuals := [(.range16, "range16")]
  reads := leavesWith AddressSpace.delegationModMul frameWords [] false
  writes := leavesWith AddressSpace.delegationModMul frameWords [] true
  enforcing := frameGatesRange16 frameWords frameBytes baseLow baseRoom ++ gates
  lookups := frameLookupsRange16 frameWords ++ valueLookups ++ quotientLookups ++ carryLookups
  channels := [⟨LookupChannel.range16, [.virtual .range16], multiplicityColumn⟩]

end Apogee.ModMul
