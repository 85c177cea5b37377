import Apogee.Mpt.Leaves
import Apogee.Rlp.Values

/-! # Field codecs

A field is read off an item and written as bytes; a row is a list of fields. What a row
reads is what it writes: every field it accepts is the one encoding of its value.
-/

namespace Apogee.Rlp

open Math

/-- A canonical integer below `2 ^ 128`. -/
def u128Of (item : Item) : Option (BitVec 128) := do
  let be ← uint item 16
  pure (be.foldl (fun acc byte => (acc <<< 8) ||| byte.toBitVec.setWidth 128) 0)

/-- An item in the form it is written in, of a length that the guest's `usize` holds. -/
abbrev Item.Written (item : Item) : Prop := Sized.Written 4 item

variable {item : Item}

theorem written_string {payload : List UInt8} (short : (encodeBytes payload).length ≤ usizeMax) :
    (⟨false, payload, encodeBytes payload⟩ : Item).Written := ⟨rfl, short⟩

theorem written_list {payload : List UInt8} (short : (encodeList payload).length ≤ usizeMax) :
    (⟨true, payload, encodeList payload⟩ : Item).Written := ⟨rfl, short⟩

theorem items_eq_sized (item : Item) : items item = Sized.items 4 item := by
  rw [items, Sized.items, itemsIn_eq_sized]

theorem items_of_list {parts : List Item} (written : ∀ part ∈ parts, part.Written)
    (whole : List UInt8) : items ⟨true, (parts.map Item.whole).flatten, whole⟩ = some parts := by
  rw [items_eq_sized]
  exact Sized.items_list (by decide) written whole

theorem items_eq_some {parts : List Item} (written : item.Written)
    (found : items item = some parts) :
    item.whole = encodeList (parts.map Item.whole).flatten ∧ ∀ part ∈ parts, part.Written :=
  Sized.items_eq_some (by decide) (by decide) written (items_eq_sized item ▸ found)

/-! ## Codecs -/

/-- A reader of items and the writer it inverts. -/
structure Codec (α : Type) where
  read : Item → Option α
  write : α → List UInt8
  sound : ∀ item value, item.Written → read item = some value → item.whole = write value
  complete : ∀ value, (write value).length ≤ usizeMax →
    ∃ item : Item, item.Written ∧ item.whole = write value ∧ read item = some value

/-- A codec of what some of the values stand for. -/
def Codec.within {α β : Type} (codec : Codec α) (decode : α → Option β) (encode : β → α)
    (inverse : ∀ whole part, decode whole = some part ↔ whole = encode part) : Codec β where
  read item := (codec.read item).bind decode
  write part := codec.write (encode part)
  sound item part written found := by
    obtain ⟨whole, read, found⟩ := Option.bind_eq_some_iff.mp found
    rw [codec.sound item whole written read, (inverse whole part).mp found]
  complete part short := by
    obtain ⟨item, written, whole, read⟩ := codec.complete (encode part) short
    refine ⟨item, written, whole, ?_⟩
    rw [read, Option.bind_some, (inverse (encode part) part).mpr rfl]

theorem bytes_eq_some {payload : List UInt8} (written : item.Written)
    (found : bytes item = some payload) : item.whole = encodeBytes payload := by
  obtain ⟨string, same⟩ := Option.ite_none_left_eq_some.mp found
  rw [written.1, Item.encoding, if_neg string, Option.some.inj same]

def Codec.string : Codec (List UInt8) where
  read := bytes
  write := encodeBytes
  sound _ _ written found := bytes_eq_some written found
  complete _ short := ⟨_, written_string short, rfl, if_neg Bool.false_ne_true⟩

theorem fixed_eq_some {n : ℕ} {value : FixedBytes n} (found : fixed n item = some value) :
    bytes item = some value.1 := by
  obtain ⟨payload, read, found⟩ := Option.bind_eq_some_iff.mp found
  obtain ⟨exact, same⟩ := Option.dite_none_right_eq_some.mp found
  rw [read, ← Option.some.inj same]

def Codec.fixed (n : ℕ) : Codec (FixedBytes n) where
  read := Rlp.fixed n
  write value := encodeBytes value.1
  sound _ _ written found := bytes_eq_some written (fixed_eq_some found)
  complete value short := ⟨_, written_string short, rfl, by
    rw [Rlp.fixed, bytes, if_neg Bool.false_ne_true, Option.bind_eq_bind, Option.bind_some,
      dif_pos value.2]⟩

/-! ## Integers -/

theorem uint_eq_some {width : ℕ} {be : List UInt8} (found : uint item width = some be) :
    bytes item = some be ∧ be.length ≤ width ∧ be.head? ≠ some 0 := by
  obtain ⟨payload, read, found⟩ := Option.bind_eq_some_iff.mp found
  obtain ⟨fits, same⟩ := Option.ite_none_left_eq_some.mp found
  obtain ⟨short, leading⟩ := not_or.mp fits
  cases same
  exact ⟨read, Nat.not_lt.mp short, leading⟩

/-- Zeros in front of minimal digits are dropped. -/
theorem dropWhile_padded {be : List UInt8} (leading : be.head? ≠ some 0) (zeros : ℕ) :
    (List.replicate zeros 0 ++ be).dropWhile (· == 0) = be := by
  rw [List.dropWhile_append_of_pos fun byte member => by
    rw [List.eq_of_mem_replicate member, beq_self_eq_true]]
  cases be with
  | nil => rfl
  | cons first rest =>
    refine List.dropWhile_cons_of_neg ?_
    rw [beq_iff_eq]
    exact fun zero => leading (congrArg some zero)

/-- A number's bytes, from the minimal ones. -/
theorem beBytes_bytesRank {n : ℕ} {be : List UInt8} (short : be.length ≤ n) :
    beBytes n (Mpt.bytesRank be) = List.replicate (n - be.length) 0 ++ be := by
  obtain ⟨zeros, rfl⟩ := Nat.exists_eq_add_of_le short
  have small : leValue be.reverse < 256 ^ be.length := by
    rw [← List.length_reverse]
    exact leValue_lt _
  have low : leBytes be.length (leValue be.reverse) = be.reverse := by
    rw [← List.length_reverse, leBytes_leValue]
  rw [Mpt.bytesRank, beBytes, leBytes_add, low, Nat.div_eq_of_lt small, leBytes_zero, List.reverse_append,
    List.reverse_reverse, List.reverse_replicate, Nat.add_sub_cancel_left]

/-- The minimal bytes of a number are written as they were read. -/
theorem encodeUint_bytesRank {n : ℕ} {be : List UInt8} (short : be.length ≤ n)
    (leading : be.head? ≠ some 0) : encodeUint (beBytes n (Mpt.bytesRank be)) = encodeBytes be := by
  rw [beBytes_bytesRank short, encodeUint, dropWhile_padded leading]

theorem length_beBytes_eq (n x : ℕ) : (beBytes n x).length = n := by
  rw [beBytes, List.length_reverse, leBytes_length]

theorem bytesRank_lt {be : List UInt8} {n : ℕ} (short : be.length ≤ n) :
    Mpt.bytesRank be < 256 ^ n := by
  refine (leValue_lt _).trans_le (Nat.pow_le_pow_right (by norm_num) ?_)
  rwa [List.length_reverse]

theorem bytesRank_beBytes {n x : ℕ} (fits : x < 256 ^ n) :
    Mpt.bytesRank ((beBytes n x).dropWhile (· == 0)) = x := by
  rw [Mpt.bytesRank_dropWhile, Mpt.bytesRank, beBytes, List.reverse_reverse, leValue_leBytes fits]

/-- An integer's item. -/
theorem written_uint {be : List UInt8} (short : (encodeUint be).length ≤ usizeMax) :
    (Mpt.uintItem be).Written := ⟨rfl, short⟩

def Codec.word : Codec Word32 where
  read := wordOf
  write value := encodeUint value.1
  sound item value written found := by
    obtain ⟨be, read, found⟩ := Option.bind_eq_some_iff.mp found
    obtain ⟨string, -, leading⟩ := uint_eq_some read
    obtain ⟨short, same⟩ := Option.dite_none_right_eq_some.mp found
    rw [bytes_eq_some written string, ← Option.some.inj same, encodeUint, dropWhile_padded leading]
  complete value short := ⟨_, written_uint short, rfl, Mpt.wordOf_uintItem value⟩

theorem u64Of_eq_some {value : UInt64} (found : u64Of item = some value) :
    ∃ be, bytes item = some be ∧ be.length ≤ 8 ∧ be.head? ≠ some 0 ∧
      value.toNat = Mpt.bytesRank be := by
  obtain ⟨be, read, same⟩ := Option.bind_eq_some_iff.mp found
  obtain ⟨string, short, leading⟩ := uint_eq_some read
  refine ⟨be, string, short, leading, ?_⟩
  rw [← Option.some.inj same, Mpt.toNat_fold_u64]
  exact Nat.mod_eq_of_lt ((bytesRank_lt short).trans_eq (by norm_num))

def Codec.u64 : Codec UInt64 where
  read := u64Of
  write := encodeU64
  sound item value written found := by
    obtain ⟨be, string, short, leading, rank⟩ := u64Of_eq_some found
    rw [bytes_eq_some written string, encodeU64, rank, encodeUint_bytesRank short leading]
  complete value short := ⟨_, written_uint short, rfl, Mpt.u64Of_uintItem value⟩

/-- A `u128`, minimally. -/
def encodeU128 (value : BitVec 128) : List UInt8 := encodeUint (beBytes 16 value.toNat)

theorem toNat_fold_u128 (be : List UInt8) :
    (be.foldl (fun (acc : BitVec 128) byte => (acc <<< 8) ||| byte.toBitVec.setWidth 128) 0).toNat =
      Mpt.bytesRank be % 2 ^ 128 := by
  rw [Mpt.toNat_fold (by norm_num), show (0 : BitVec 128).toNat = 0 from rfl, Nat.zero_mul,
    Nat.zero_add]

theorem u128Of_eq_some {value : BitVec 128} (found : u128Of item = some value) :
    ∃ be, bytes item = some be ∧ be.length ≤ 16 ∧ be.head? ≠ some 0 ∧
      value.toNat = Mpt.bytesRank be := by
  obtain ⟨be, read, same⟩ := Option.bind_eq_some_iff.mp found
  obtain ⟨string, short, leading⟩ := uint_eq_some read
  refine ⟨be, string, short, leading, ?_⟩
  rw [← Option.some.inj same, toNat_fold_u128]
  exact Nat.mod_eq_of_lt ((bytesRank_lt short).trans_eq (by norm_num))

theorem u128Of_uintItem (value : BitVec 128) :
    u128Of (Mpt.uintItem (beBytes 16 value.toNat)) = some value := by
  have rank := @bytesRank_beBytes 16 _ (value.isLt.trans_eq (by norm_num))
  rw [u128Of, Mpt.uint_uintItem (length_beBytes_eq 16 _).le, Option.bind_eq_bind, Option.bind_some]
  refine congrArg some (BitVec.toNat_inj.mp ?_)
  rw [toNat_fold_u128, rank, Nat.mod_eq_of_lt value.isLt]

def Codec.u128 : Codec (BitVec 128) where
  read := u128Of
  write := encodeU128
  sound item value written found := by
    obtain ⟨be, string, short, leading, rank⟩ := u128Of_eq_some found
    rw [bytes_eq_some written string, encodeU128, rank, encodeUint_bytesRank short leading]
  complete value short := ⟨_, written_uint short, rfl, u128Of_uintItem value⟩

/-! ## Rows -/

/-- Fields in a row, read from a place on. -/
structure RowCodec (α : Type) where
  width : ℕ
  read : ℕ → List Item → Option α
  write : α → List (List UInt8)
  sound : ∀ place items value, (∀ item ∈ items, item.Written) → items.length = place + width →
    read place items = some value → (items.drop place).map Item.whole = write value
  complete : ∀ (front : List Item) value, (∀ field ∈ write value, field.length ≤ usizeMax) →
    ∃ items : List Item, (∀ item ∈ items, item.Written) ∧ items.length = width ∧
      items.map Item.whole = write value ∧ read front.length (front ++ items) = some value

def RowCodec.nil : RowCodec Unit where
  width := 0
  read _ _ := some ()
  write _ := []
  sound place items _ _ length _ := by
    rw [List.drop_of_length_le (length.trans (Nat.add_zero place)).le, List.map_nil]
  complete _ _ _ := ⟨[], fun _ member => absurd member List.not_mem_nil, rfl, rfl, rfl⟩

def RowCodec.cons {α β : Type} (field : Codec α) (row : RowCodec β) : RowCodec (α × β) where
  width := row.width + 1
  read place items := do
    let value ← items[place]?.bind field.read
    let rest ← row.read (place + 1) items
    pure (value, rest)
  write value := field.write value.1 :: row.write value.2
  sound place items value written length found := by
    obtain ⟨first, here, found⟩ := Option.bind_eq_some_iff.mp found
    obtain ⟨rest, later, same⟩ := Option.bind_eq_some_iff.mp found
    obtain ⟨item, there, read⟩ := Option.bind_eq_some_iff.mp here
    obtain ⟨inside, own⟩ := List.getElem?_eq_some_iff.mp there
    cases same
    rw [List.drop_eq_getElem_cons inside, List.map_cons, own,
      field.sound item first (written item (List.mem_of_getElem? there)) read,
      row.sound (place + 1) items rest written (by rw [length]; omega) later]
  complete front value short := by
    obtain ⟨here, later⟩ := List.forall_mem_cons.mp short
    obtain ⟨item, written, whole, read⟩ := field.complete value.1 here
    obtain ⟨items, others, length, wholes, reads⟩ := row.complete (front ++ [item]) value.2 later
    refine ⟨item :: items, List.forall_mem_cons.mpr ⟨written, others⟩, ?_, ?_, ?_⟩
    · rw [List.length_cons, length]
    · rw [List.map_cons, whole, wholes]
    · have place : (front ++ item :: items)[front.length]? = some item := by
        rw [List.getElem?_append_right le_rfl, Nat.sub_self, List.getElem?_cons_zero]
      rw [List.length_append, List.length_singleton, List.append_assoc,
        List.singleton_append] at reads
      rw [place, Option.bind_some, read, reads]
      rfl

variable {α : Type}

/-- A row off a list's items. -/
def RowCodec.ofItems (row : RowCodec α) (items : List Item) : Option α :=
  if items.length = row.width then row.read 0 items else none

/-- The row's list of fields. -/
def RowCodec.encode (row : RowCodec α) (value : α) : List UInt8 :=
    encodeList (row.write value).flatten

theorem length_le_flatten {parts : List (List UInt8)} {part : List UInt8} (member : part ∈ parts) :
    part.length ≤ parts.flatten.length :=
  (List.sublist_flatten_of_mem member).length_le

theorem RowCodec.ofItems_sound (row : RowCodec α) {items : List Item} {value : α}
    (written : ∀ item ∈ items, item.Written) (found : row.ofItems items = some value) :
    items.map Item.whole = row.write value := by
  obtain ⟨length, found⟩ := Option.ite_none_right_eq_some.mp found
  have whole := row.sound 0 items value written (by rw [length, Nat.zero_add]) found
  rwa [List.drop_zero] at whole

theorem RowCodec.ofItems_complete (row : RowCodec α) {value : α}
    (short : (row.encode value).length ≤ usizeMax) :
    ∃ items : List Item, (∀ item ∈ items, item.Written) ∧ items.map Item.whole = row.write value ∧
      row.ofItems items = some value := by
  have each : ∀ field ∈ row.write value, field.length ≤ usizeMax := fun field member =>
    (length_le_flatten member).trans ((length_le_encodeList _).trans short)
  obtain ⟨items, written, length, wholes, read⟩ := row.complete [] value each
  exact ⟨items, written, wholes, (if_pos length).trans read⟩

/-- A list item that is a row. -/
def Codec.row (row : RowCodec α) : Codec α where
  read item := (items item).bind row.ofItems
  write := row.encode
  sound item value written found := by
    obtain ⟨parts, listed, found⟩ := Option.bind_eq_some_iff.mp found
    obtain ⟨whole, each⟩ := items_eq_some written listed
    rw [whole, row.ofItems_sound each found]
    rfl
  complete value short := by
    obtain ⟨parts, written, wholes, read⟩ := row.ofItems_complete short
    refine ⟨⟨true, (parts.map Item.whole).flatten, encodeList (parts.map Item.whole).flatten⟩, ?_,
      ?_, ?_⟩
    · exact written_list (by rwa [wholes])
    · rw [wholes]
      rfl
    · rw [items_of_list written, Option.bind_some, read]

/-- A list of values of one kind. -/
def encodeEach (write : α → List UInt8) (values : List α) : List UInt8 :=
  encodeList (values.map write).flatten

def Codec.many (codec : Codec α) : Codec (List α) where
  read item := (items item).bind (·.mapM codec.read)
  write := encodeEach codec.write
  sound item values written found := by
    obtain ⟨parts, listed, found⟩ := Option.bind_eq_some_iff.mp found
    obtain ⟨whole, each⟩ := items_eq_some written listed
    have wholes : ∀ (parts : List Item) (values : List α), (∀ part ∈ parts, part.Written) →
        parts.mapM codec.read = some values → parts.map Item.whole = values.map codec.write := by
      intro parts
      induction parts with
      | nil =>
        intro values _ found
        cases found
        rfl
      | cons part parts ih =>
        intro values written found
        obtain ⟨here, others⟩ := List.forall_mem_cons.mp written
        rw [List.mapM_cons] at found
        obtain ⟨value, read, found⟩ := Option.bind_eq_some_iff.mp found
        obtain ⟨rest, later, same⟩ := Option.bind_eq_some_iff.mp found
        cases same
        rw [List.map_cons, List.map_cons, codec.sound part value here read, ih rest others later]
    rw [whole, wholes parts values each found]
    rfl
  complete values short := by
    have parts : ∀ values : List α, (∀ value ∈ values, (codec.write value).length ≤ usizeMax) →
        ∃ parts : List Item, (∀ part ∈ parts, part.Written) ∧
          parts.map Item.whole = values.map codec.write ∧ parts.mapM codec.read = some values := by
      intro values
      induction values with
      | nil => exact fun _ => ⟨[], fun _ member => absurd member List.not_mem_nil, rfl, rfl⟩
      | cons value values ih =>
        intro short
        obtain ⟨here, later⟩ := List.forall_mem_cons.mp short
        obtain ⟨part, written, whole, read⟩ := codec.complete value here
        obtain ⟨parts, others, wholes, reads⟩ := ih later
        refine ⟨part :: parts, List.forall_mem_cons.mpr ⟨written, others⟩, ?_, ?_⟩
        · rw [List.map_cons, List.map_cons, whole, wholes]
        · rw [List.mapM_cons, read, reads]
          rfl
    obtain ⟨parts, written, wholes, read⟩ := parts values fun value member =>
      (length_le_flatten (List.mem_map_of_mem member)).trans ((length_le_encodeList _).trans short)
    refine ⟨⟨true, (parts.map Item.whole).flatten, encodeList (parts.map Item.whole).flatten⟩, ?_,
      ?_, ?_⟩
    · exact written_list (by rwa [wholes])
    · rw [wholes]
      rfl
    · rw [items_of_list written, Option.bind_some, read]

/-- A row as a whole byte string: exactly the encodings of its values are read. -/
theorem RowCodec.listItems_iff (row : RowCodec α) {input : List UInt8} {value : α} :
    (listItems input).bind row.ofItems = some value ↔
      input = row.encode value ∧ input.length ≤ usizeMax := by
  constructor
  · intro found
    obtain ⟨parts, listed, found⟩ := Option.bind_eq_some_iff.mp found
    obtain ⟨whole, short, each⟩ := listItems_eq_some listed
    refine ⟨?_, short⟩
    rw [whole, row.ofItems_sound each found]
    rfl
  · rintro ⟨rfl, short⟩
    obtain ⟨parts, written, wholes, read⟩ := row.ofItems_complete short
    have split := split_encodeList (parts.map Item.whole).flatten [] (by rwa [wholes])
    rw [List.append_nil] at split
    rw [RowCodec.encode, ← wholes, listItems, split, Option.bind_eq_bind, Option.bind_some]
    dsimp only
    rw [if_pos rfl, items_of_list written, Option.bind_some, read]

end Apogee.Rlp
