import Apogee.Stateless.Transaction

/-! # The fields that are not plain

Each is read, without a stop of the guest, from exactly what it is written to.
-/

namespace Apogee.Stateless.Tx

open Rlp
open Bounds (Attempt expected index sub add bind_eq_ok bind_ne_panic malformed_ne_panic ok_ne_panic
  eq_expected)

variable {α : Type} {items : List Item} {place : ℕ} {read : Item → Option α} {item : Item}

theorem field_eq (inside : place < items.length) :
    field items place read = expected (items[place]?.bind read) := by
  have here : index items place = .ok items[place] := by rw [index, List.getElem?_eq_getElem inside]
  rw [field, here, List.getElem?_eq_getElem inside]
  rfl

theorem field_eq_ok {value : α} :
    field items place read = .ok value ↔ items[place]?.bind read = some value := by
  rcases Nat.lt_or_ge place items.length with inside | outside
  · rw [field_eq inside]
    exact Bounds.expected_eq_ok
  · have none := List.getElem?_eq_none outside
    have stops : field items place read = .error .panic := by
      rw [field, index, none]
      rfl
    rw [stops, none]
    exact ⟨fun same => (by cases same), fun same => (by cases same)⟩

/-- A field in part of a codec's values. -/
theorem bind_within {β : Type} {decode : α → Option β} {part : β} {items : List Item} {place : ℕ} :
    (items[place]?.bind fun item => (read item).bind decode) = some part ↔
      ∃ whole, items[place]?.bind read = some whole ∧ decode whole = some part := by
  rw [← Option.bind_assoc]
  exact Option.bind_eq_some_iff

theorem field_ne_panic (inside : place < items.length) :
    field items place read ≠ .error .panic := by
  rw [field_eq inside]
  exact Bounds.expected_ne_panic _

/-! ## Integers -/

def parityCodec : Codec Bool :=
  Codec.u64.within (fun v => if v.toNat ≤ 1 then some (decide (v.toNat = 1)) else none)
    (fun yOdd => if yOdd then 1 else 0) fun v yOdd => by
      constructor
      · intro found
        obtain ⟨low, same⟩ := Option.ite_none_right_eq_some.mp found
        rw [← Option.some.inj same]
        rcases Nat.le_one_iff_eq_zero_or_eq_one.mp low with zero | one
        · rw [zero]
          exact UInt64.toNat_inj.mp zero
        · rw [one]
          exact UInt64.toNat_inj.mp one
      · rintro rfl
        cases yOdd with
        | false => rfl
        | true => rfl

def byteCodec : Codec UInt8 :=
  Codec.u64.within (fun v => if v.toNat < 256 then some v.toUInt8 else none) UInt8.toUInt64
    fun v byte => by
      constructor
      · intro found
        obtain ⟨low, same⟩ := Option.ite_none_right_eq_some.mp found
        rw [← Option.some.inj same]
        refine UInt64.toNat_inj.mp ?_
        rw [UInt8.toNat_toUInt64, UInt64.toNat_toUInt8, Nat.mod_eq_of_lt low]
      · rintro rfl
        have low : byte.toUInt64.toNat < 256 := byte.toNat_toUInt64 ▸ byte.toNat_lt
        rw [if_pos low]
        refine congrArg some (UInt8.toNat_inj.mp ?_)
        rw [UInt64.toNat_toUInt8, UInt8.toNat_toUInt64, Nat.mod_eq_of_lt byte.toNat_lt]

theorem byte_read {byte : UInt8} : items[place]?.bind byteCodec.read = some byte ↔
    ∃ v, items[place]?.bind u64Of = some v ∧
      (if v.toNat < 256 then some v.toUInt8 else none) = some byte := bind_within

theorem parity_read {yOdd : Bool} : items[place]?.bind parityCodec.read = some yOdd ↔
    ∃ v, items[place]?.bind u64Of = some v ∧
      (if v.toNat ≤ 1 then some (decide (v.toNat = 1)) else none) = some yOdd := bind_within

/-- A legacy `v`, read. -/
def parityOf? (v : BitVec 128) : Option (Option UInt64 × Bool) :=
  if v.toNat = 27 ∨ v.toNat = 28 then some (none, decide (v.toNat = 28))
  else if 35 ≤ v.toNat then
    if (v.toNat - 35) / 2 < 2 ^ 64 then
      some (some (UInt64.ofNat ((v.toNat - 35) / 2)), decide ((v.toNat - 35) % 2 = 1))
    else none
  else none

theorem parityOf_eq (v : BitVec 128) : parityOf v = expected (parityOf? v) := by
  unfold parityOf parityOf?
  by_cases plain : v.toNat = 27 ∨ v.toNat = 28
  · rw [if_pos plain, if_pos plain]
    rfl
  rw [if_neg plain, if_neg plain]
  by_cases high : 35 ≤ v.toNat
  · have less : sub v.toNat 35 = .ok (v.toNat - 35) := if_pos high
    rw [if_pos high, if_pos high, less, Bounds.ok_bind]
    by_cases fits : (v.toNat - 35) / 2 < 2 ^ 64
    · rw [if_pos fits, if_pos fits]
      rfl
    · rw [if_neg fits, if_neg fits]
      rfl
  · rw [if_neg high, if_neg high]
    rfl

theorem legacyV_lt (chainId : Option UInt64) (yOdd : Bool) :
    Fields.legacyV chainId yOdd < 2 ^ 128 := by
  have odd : yOdd.toNat ≤ 1 := yOdd.toNat_le
  cases chainId with
  | none =>
    rw [Fields.legacyV]
    omega
  | some chainId =>
    have bound := chainId.toNat_lt
    rw [Fields.legacyV]
    omega

theorem parityOf_legacyV (v : BitVec 128) (known : Option UInt64 × Bool) :
    parityOf? v = some known ↔ v = BitVec.ofNat 128 (Fields.legacyV known.1 known.2) := by
  obtain ⟨chainId, yOdd⟩ := known
  have value : v = BitVec.ofNat 128 (Fields.legacyV chainId yOdd) ↔
      v.toNat = Fields.legacyV chainId yOdd := by
    rw [← BitVec.toNat_inj, BitVec.toNat_ofNat, Nat.mod_eq_of_lt (legacyV_lt chainId yOdd)]
  dsimp only
  rw [value]
  unfold parityOf?
  generalize v.toNat = n
  by_cases plain : n = 27 ∨ n = 28
  · rw [if_pos plain]
    cases chainId with
    | none =>
      rw [Option.some_inj, Prod.mk.injEq, eq_self_iff_true, true_and, Fields.legacyV]
      rcases plain with rfl | rfl
      · cases yOdd <;> decide
      · cases yOdd <;> decide
    | some chainId =>
      refine ⟨fun same => (by cases same), fun same => ?_⟩
      rw [Fields.legacyV] at same
      omega
  rw [if_neg plain]
  by_cases high : 35 ≤ n
  · rw [if_pos high]
    cases chainId with
    | none =>
      have odd := yOdd.toNat_le
      refine ⟨fun same => ?_, fun same => ?_⟩
      · obtain ⟨-, same⟩ := Option.ite_none_right_eq_some.mp same
        cases same
      · rw [Fields.legacyV] at same
        omega
    | some chainId =>
      have bound := chainId.toNat_lt
      constructor
      · intro found
        obtain ⟨fits, same⟩ := Option.ite_none_right_eq_some.mp found
        cases same
        have parity : (decide ((n - 35) % 2 = 1)).toNat = (n - 35) % 2 := by
          rcases Nat.mod_two_eq_zero_or_one (n - 35) with even | odd
          · rw [even]
            rfl
          · rw [odd]
            rfl
        rw [Fields.legacyV, parity, UInt64.toNat_ofNat_of_lt' fits]
        omega
      · intro same
        rw [Fields.legacyV] at same
        have halves : (n - 35) / 2 = chainId.toNat ∧ (n - 35) % 2 = yOdd.toNat := by
          have odd := yOdd.toNat_le
          omega
        rw [if_pos (by omega), halves.1, halves.2, UInt64.ofNat_toNat]
        cases yOdd <;> rfl
  · rw [if_neg high]
    refine ⟨fun same => (by cases same), fun same => ?_⟩
    have odd := yOdd.toNat_le
    cases chainId with
    | none =>
      rw [Fields.legacyV] at same
      omega
    | some chainId =>
      rw [Fields.legacyV] at same
      omega

def vCodec : Codec (Option UInt64 × Bool) :=
  Codec.u128.within parityOf? (fun known => BitVec.ofNat 128 (Fields.legacyV known.1 known.2))
    parityOf_legacyV

theorem v_read {known : Option UInt64 × Bool} : items[place]?.bind vCodec.read = some known ↔
    ∃ v, items[place]?.bind u128Of = some v ∧ parityOf? v = some known := bind_within

/-! ## Destinations -/

theorem toOf_nil (whole : List UInt8) : toOf ⟨false, [], whole⟩ = some none := rfl

theorem toOf_address (address : Address) (whole : List UInt8) :
    toOf ⟨false, address.1, whole⟩ = some (some address) := by
  obtain ⟨payload, exact20⟩ := address
  have read : fixed 20 ⟨false, payload, whole⟩ = some ⟨payload, exact20⟩ := by
    rw [fixed, Rlp.bytes, if_neg Bool.false_ne_true, Option.bind_eq_bind, Option.bind_some,
      dif_pos exact20]
  cases payload with
  | nil => cases exact20
  | cons first rest =>
    rw [toOf, read]
    rfl

def toCodec : Codec (Option Address) where
  read := toOf
  write := encodeTo
  sound item destination written found := by
    obtain ⟨payload, read, found⟩ := Option.bind_eq_some_iff.mp found
    cases payload with
    | nil =>
      cases found
      exact bytes_eq_some written read
    | cons first rest =>
      obtain ⟨address, exact20, same⟩ := Option.bind_eq_some_iff.mp found
      cases same
      exact bytes_eq_some written (fixed_eq_some exact20)
  complete destination short := by
    cases destination with
    | none => exact ⟨_, written_string short, rfl, toOf_nil _⟩
    | some address => exact ⟨_, written_string short, rfl, toOf_address address _⟩

/-! ## Lists -/

theorem items_eq (item : Item) : Bounds.items 4 item = expected (Rlp.items item) := by
  rw [Bounds.items_eq (by decide), items_eq_sized]

theorem listItems_eq (bytes : List UInt8) : listItems bytes = expected (Rlp.listItems bytes) := by
  rw [listItems, Rlp.listItems, Bounds.split_eq (by decide), split_eq_sized, Option.bind_eq_bind,
    Bounds.expected_bind]
  refine congrArg _ (funext fun found => ?_)
  dsimp only
  by_cases ends : found.2 = []
  · rw [if_pos ends, if_pos ends, items_eq]
  · rw [if_neg ends, if_neg ends]
    rfl

def keysCodec : Codec (List Word32) := .many (.fixed 32)

theorem keys_eq (item : Item) : (do
      let keys ← Bounds.items 4 item
      keys.mapM fun key => expected (fixed 32 key)) = expected (keysCodec.read item) := by
  rw [items_eq]
  refine Eq.trans ?_ (Bounds.expected_bind _ _).symm
  exact congrArg _ (funext fun keys => Bounds.mapM_expected _ keys)

/-- Keys, and what is done with them. -/
theorem keys_bind (item : Item) (next : List Word32 → Attempt α) : (do
      let keys ← Bounds.items 4 item
      let keys ← keys.mapM fun key => expected (fixed 32 key)
      next keys) = expected (keysCodec.read item) >>= next := by
  rw [← keys_eq, bind_assoc]

def entryRow : RowCodec (Address × List Word32 × Unit) := .cons (.fixed 20) (.cons keysCodec .nil)

def entryCodec : Codec (Address × List Word32) :=
  (Codec.row entryRow).within (fun entry => some (entry.1, entry.2.1))
    (fun entry => (entry.1, entry.2, ()))
    fun _ _ => ⟨fun same => Option.some.inj same ▸ rfl, fun same => same ▸ rfl⟩

theorem entryOf_eq (entry : Item) : entryOf entry = expected (entryCodec.read entry) := by
  have codec : entryCodec.read entry = ((Rlp.items entry).bind entryRow.ofItems).bind
      fun entry => some (entry.1, entry.2.1) := rfl
  rw [entryOf, items_eq, codec]
  cases Rlp.items entry with
  | none => rfl
  | some pair =>
    rw [expected, Bounds.ok_bind, Option.bind_some]
    by_cases two : pair.length = 2
    · obtain ⟨first, second, rfl⟩ := List.length_eq_two.mp two
      have here : index [first, second] 1 = .ok second := rfl
      have row : entryRow.ofItems [first, second] = (fixed 20 first).bind fun address =>
          (keysCodec.read second).bind fun keys => some (address, keys, ()) := by
        change ((fixed 20 first).bind fun address =>
          ((keysCodec.read second).bind fun keys => some (keys, ())).bind
            fun rest => some (address, rest)) = _
        simp only [Option.bind_assoc, Option.bind_some]
      rw [if_neg (not_not_intro two), here, Bounds.ok_bind, keys_bind, row,
        field_eq (show 0 < [first, second].length from Nat.two_pos)]
      change expected (keysCodec.read second) >>= (fun keys => expected (fixed 20 first) >>=
        fun address => pure (address, keys)) = _
      cases keysCodec.read second with
      | none =>
        cases fixed 20 first with
        | none => rfl
        | some address => rfl
      | some keys =>
        cases fixed 20 first with
        | none => rfl
        | some address => rfl
    · have other : entryRow.ofItems pair = none := if_neg two
      rw [if_pos two, other]
      rfl

def accessListCodec : Codec (List (Address × List Word32)) := .many entryCodec

theorem accessListOf_eq (item : Item) :
    accessListOf item = expected (accessListCodec.read item) := by
  have each : entryOf = fun entry => expected (entryCodec.read entry) := funext entryOf_eq
  rw [accessListOf, items_eq, each]
  refine Eq.trans ?_ (Bounds.expected_bind _ _).symm
  exact congrArg _ (funext fun entries => Bounds.mapM_expected _ entries)

/-! ## Authorizations -/

def authorizationRow : RowCodec (Word32 × Address × UInt64 × UInt8 × Word32 × Word32 × Unit) :=
  .cons .word (.cons (.fixed 20) (.cons .u64 (.cons byteCodec (.cons .word (.cons .word .nil)))))

def authorizationCodec : Codec Authorization :=
  (Codec.row authorizationRow).within
    (fun (chainId, address, nonce, yParity, r, s, _) => some ⟨chainId, address, nonce, yParity, r,
      s⟩)
    (fun it => (it.chainId, it.address, it.nonce, it.yParity, it.r, it.s, ()))
    fun _ _ => ⟨fun same => Option.some.inj same ▸ rfl, fun same => same ▸ rfl⟩

theorem authorizationOf_eq (item : Item) :
    authorizationOf item = expected (authorizationCodec.read item) := by
  have codec : authorizationCodec.read item = ((Rlp.items item).bind authorizationRow.ofItems).bind
      fun (chainId, address, nonce, yParity, r, s, _) =>
        some ⟨chainId, address, nonce, yParity, r, s⟩ := rfl
  rw [authorizationOf, items_eq, codec]
  cases Rlp.items item with
  | none => rfl
  | some fields =>
    rw [expected, Bounds.ok_bind, Option.bind_some]
    by_cases six : fields.length = 6
    · rw [if_neg (not_not_intro six)]
      refine eq_expected ?_ fun value => ?_
      · refine bind_ne_panic (field_ne_panic (by omega)) fun yParity _ => ?_
        refine bind_ne_panic (field_ne_panic (by omega)) fun chainId _ => ?_
        refine bind_ne_panic (field_ne_panic (by omega)) fun address _ => ?_
        refine bind_ne_panic (field_ne_panic (by omega)) fun nonce _ => ?_
        refine bind_ne_panic (Bounds.expected_ne_panic _) fun byte _ => ?_
        refine bind_ne_panic (field_ne_panic (by omega)) fun r _ => ?_
        exact bind_ne_panic (field_ne_panic (by omega)) fun s _ => ok_ne_panic
      · have row : authorizationRow.ofItems fields = authorizationRow.read 0 fields := if_pos six
        rw [row]
        constructor
        · intro read
          obtain ⟨wide, readParity, read⟩ := bind_eq_ok.mp read
          obtain ⟨chainId, readChainId, read⟩ := bind_eq_ok.mp read
          obtain ⟨address, readAddress, read⟩ := bind_eq_ok.mp read
          obtain ⟨nonce, readNonce, read⟩ := bind_eq_ok.mp read
          obtain ⟨yParity, fits, read⟩ := bind_eq_ok.mp read
          obtain ⟨r, readR, read⟩ := bind_eq_ok.mp read
          obtain ⟨s, readS, read⟩ := bind_eq_ok.mp read
          cases read
          have parity : fields[3]?.bind byteCodec.read = some yParity :=
            byte_read.mpr ⟨wide, field_eq_ok.mp readParity, Bounds.expected_eq_ok.mp fits⟩
          refine Option.bind_eq_some_iff.mpr ⟨(chainId, address, nonce, yParity, r, s, ()), ?_, rfl⟩
          refine RowCodec.cons_read.mpr ⟨field_eq_ok.mp readChainId, ?_⟩
          refine RowCodec.cons_read.mpr ⟨field_eq_ok.mp readAddress, ?_⟩
          refine RowCodec.cons_read.mpr ⟨field_eq_ok.mp readNonce, RowCodec.cons_read.mpr ⟨parity,
            ?_⟩⟩
          refine RowCodec.cons_read.mpr ⟨field_eq_ok.mp readR, ?_⟩
          exact RowCodec.cons_read.mpr ⟨field_eq_ok.mp readS, rfl⟩
        · intro found
          obtain ⟨⟨chainId, address, nonce, yParity, r, s, _⟩, read, same⟩ :=
            Option.bind_eq_some_iff.mp found
          cases same
          obtain ⟨readChainId, read⟩ := RowCodec.cons_read.mp read
          obtain ⟨readAddress, read⟩ := RowCodec.cons_read.mp read
          obtain ⟨readNonce, read⟩ := RowCodec.cons_read.mp read
          obtain ⟨readParity, read⟩ := RowCodec.cons_read.mp read
          obtain ⟨readR, read⟩ := RowCodec.cons_read.mp read
          obtain ⟨readS, -⟩ := RowCodec.cons_read.mp read
          obtain ⟨wide, readParity, fits⟩ := byte_read.mp readParity
          refine bind_eq_ok.mpr ⟨wide, field_eq_ok.mpr readParity, ?_⟩
          refine bind_eq_ok.mpr ⟨chainId, field_eq_ok.mpr readChainId, ?_⟩
          refine bind_eq_ok.mpr ⟨address, field_eq_ok.mpr readAddress, ?_⟩
          refine bind_eq_ok.mpr ⟨nonce, field_eq_ok.mpr readNonce, ?_⟩
          refine bind_eq_ok.mpr ⟨yParity, Bounds.expected_eq_ok.mpr fits, ?_⟩
          refine bind_eq_ok.mpr ⟨r, field_eq_ok.mpr readR, ?_⟩
          exact bind_eq_ok.mpr ⟨s, field_eq_ok.mpr readS, rfl⟩
    · have other : authorizationRow.ofItems fields = none := if_neg six
      rw [if_pos six, other]
      rfl

/-- The authorizations of a list. -/
def authorizationsCodec : Codec (List Authorization) := .many authorizationCodec

theorem authorizations_eq (item : Item) : (Bounds.items 4 item >>= fun tuples =>
      tuples.mapM authorizationOf) = expected (authorizationsCodec.read item) := by
  have each : authorizationOf = fun tuple => expected (authorizationCodec.read tuple) :=
    funext authorizationOf_eq
  rw [items_eq, each]
  refine Eq.trans ?_ (Bounds.expected_bind _ _).symm
  exact congrArg _ (funext fun tuples => Bounds.mapM_expected _ tuples)

end Apogee.Stateless.Tx
