import Apogee.Mpt.Rlp

/-! # What is read was written

The codec reads an item in one form only: the one that it is written in.
-/

namespace Apogee.Rlp

open Apogee.Math

/-- The form an item is written in. -/
def Item.encoding (item : Item) : List UInt8 :=
  if item.list then encodeList item.payload else encodeBytes item.payload

variable {bytes body size rest : List UInt8} {start stop len : ℕ} {item : Item} {list : Bool}

theorem slice_eq_some (found : slice bytes start stop = some body) :
    stop ≤ bytes.length ∧ body = (bytes.take stop).drop start := by
  obtain ⟨enough, same⟩ := Option.ite_none_right_eq_some.mp found
  exact ⟨enough, (Option.some.inj same).symm⟩

/-- A cut leaves the bytes as they were. -/
theorem cut_eq_some (found : cut list bytes start stop = some (item, rest)) :
    bytes = item.whole ++ rest ∧ item.list = list ∧ item.whole = bytes.take stop ∧
      stop ≤ bytes.length ∧ item.payload = (bytes.take stop).drop start := by
  obtain ⟨body, sliced, same⟩ := Option.bind_eq_some_iff.mp found
  obtain ⟨enough, rfl⟩ := slice_eq_some sliced
  cases same
  exact ⟨(List.take_append_drop stop bytes).symm, rfl, rfl, enough, rfl⟩

namespace Sized

variable {usize : ℕ}

/-- A declared length is the number of its bytes. -/
theorem leValue_of_length (declared : length usize size = some len) : leValue size.reverse = len := by
  induction size using List.reverseRecOn generalizing len with
  | nil =>
    cases declared
    rfl
  | append_singleton size byte ih =>
    rw [length, List.foldlM_append] at declared
    obtain ⟨high, first, last⟩ := Option.bind_eq_some_iff.mp declared
    rw [List.foldlM_cons] at last
    obtain ⟨whole, step, same⟩ := Option.bind_eq_some_iff.mp last
    cases same
    obtain ⟨shifted, fits, sum⟩ := Option.bind_eq_some_iff.mp step
    obtain ⟨-, same⟩ := Option.ite_none_right_eq_some.mp fits
    obtain ⟨-, total⟩ := Option.ite_none_right_eq_some.mp sum
    rw [List.reverse_append, List.reverse_singleton, List.singleton_append, leValue, ih first,
      ← Option.some.inj total, ← Option.some.inj same, Nat.mul_comm, Nat.add_comm]

/-- A length without a leading zero is written as it was read. -/
theorem dropWhile_beBytes (declared : length usize size = some len) (leading : size.head? ≠ some 0)
    (narrow : size.length ≤ 8) : (beBytes 8 len).dropWhile (· == 0) = size := by
  have value := leValue_of_length declared
  obtain ⟨zeros, eight⟩ := Nat.exists_eq_add_of_le narrow
  have small : len < 256 ^ size.length := by
    rw [← value, ← List.length_reverse]
    exact leValue_lt _
  have low : leBytes size.length len = size.reverse := by
    rw [← value, ← List.length_reverse, leBytes_leValue]
  rw [beBytes, eight, leBytes_add, low, Nat.div_eq_of_lt small, List.reverse_append,
    List.reverse_reverse, ← beBytes, List.dropWhile_append_of_pos mem_beBytes_zero]
  cases size with
  | nil => rfl
  | cons first rest =>
    refine List.dropWhile_cons_of_neg ?_
    rw [beq_iff_eq]
    exact fun zero => leading (congrArg some zero)

/-- A long item is its header and its payload, and does not fit the short form. -/
theorem long_eq_some {first : UInt8} {tail : List UInt8} {width : ℕ}
    (wide : usize ≤ 8) (found : long usize (first :: tail) width list = some (item, rest)) :
    first :: tail = item.whole ++ rest ∧ item.list = list ∧ 55 < item.payload.length ∧
      item.whole = first :: ((beBytes 8 item.payload.length).dropWhile (· == 0) ++ item.payload) ∧
      ((beBytes 8 item.payload.length).dropWhile (· == 0)).length = width ∧
      item.whole.length ≤ maxOf usize := by
  obtain ⟨size, sliced, found⟩ := Option.bind_eq_some_iff.mp found
  obtain ⟨enough, sized⟩ := slice_eq_some sliced
  obtain ⟨leading, found⟩ := Option.ite_none_left_eq_some.mp found
  obtain ⟨narrow, found⟩ := Option.ite_none_left_eq_some.mp found
  obtain ⟨len, declared, found⟩ := Option.bind_eq_some_iff.mp found
  obtain ⟨high, found⟩ := Option.ite_none_left_eq_some.mp found
  obtain ⟨stop, fits, found⟩ := Option.bind_eq_some_iff.mp found
  obtain ⟨room, same⟩ := Option.ite_none_right_eq_some.mp fits
  obtain ⟨whole, kind, taken, inside, payload⟩ := cut_eq_some found
  cases same
  rw [Nat.add_comm 1 width, List.take_succ_cons, List.drop_succ_cons, List.drop_zero] at sized
  rw [Nat.add_comm 1 width, List.length_cons, Nat.succ_le_succ_iff] at enough
  have long : size.length = width := by rw [sized, List.length_take, Nat.min_eq_left enough]
  have ends : 1 + width + len = width + len + 1 := by omega
  have measure : item.payload.length = len := by
    rw [payload, List.length_drop, List.length_take, Nat.min_eq_left inside]
    omega
  have written : (beBytes 8 item.payload.length).dropWhile (· == 0) = size := by
    rw [measure]
    exact dropWhile_beBytes declared leading (by omega)
  refine ⟨whole, kind, by omega, ?_, by rw [written, long], ?_⟩
  · have body : item.payload = (tail.drop width).take len := by
      rw [payload, ends, List.take_succ_cons, Nat.add_comm 1 width, List.drop_succ_cons, List.drop_take,
        Nat.add_sub_cancel_left]
    rw [written, taken, ends, List.take_succ_cons, body, sized, ← List.take_add]
  · rw [taken, List.length_take]
    exact (Nat.min_le_left _ _).trans room

theorem ofNat_pred (first low : UInt8) (least : low ≤ first) :
    low + UInt8.ofNat (first.toNat - low.toNat) = first := by
  have bound := first.toNat_lt
  have order := UInt8.le_iff_toNat_le.mp least
  refine UInt8.toNat_inj.mp ?_
  rw [UInt8.toNat_add, UInt8.toNat_ofNat']
  omega

/-- A short item is its header and its payload. -/
theorem short_eq_some {first low : UInt8} {tail : List UInt8} (byte : 1 ≤ usize) (least : low ≤ first)
    (most : first.toNat - low.toNat ≤ 55)
    (found : cut list (first :: tail) 1 (1 + (first.toNat - low.toNat)) = some (item, rest)) :
    first :: tail = item.whole ++ rest ∧ item.list = list ∧
      item.whole = encodeHeader item.payload.length low ++ item.payload ∧
      item.payload.length = first.toNat - low.toNat ∧ item.whole.length ≤ maxOf usize := by
  obtain ⟨whole, kind, taken, inside, payload⟩ := cut_eq_some found
  have measure : item.payload.length = first.toNat - low.toNat := by
    rw [payload, List.length_drop, List.length_take, Nat.min_eq_left inside]
    omega
  refine ⟨whole, kind, ?_, measure, ?_⟩
  · rw [encodeHeader, if_pos (measure ▸ most), measure, ofNat_pred first low least, taken, payload,
      Nat.add_comm 1, List.take_succ_cons, List.drop_succ_cons, List.drop_zero]
    rfl
  · rw [taken, List.length_take]
    refine (Nat.min_le_left _ _).trans ?_
    have wide : 256 ^ 1 ≤ 256 ^ usize := Nat.pow_le_pow_right (by decide) byte
    have room := succ_maxOf usize
    omega

/-- An item that is read is its encoding, and what follows it. -/
theorem split_eq_some (byte : 1 ≤ usize) (wide : usize ≤ 8)
    (found : split usize bytes = some (item, rest)) :
    bytes = item.whole ++ rest ∧ item.whole = item.encoding ∧ item.whole.length ≤ maxOf usize := by
  obtain ⟨first, head, found⟩ := Option.bind_eq_some_iff.mp found
  obtain ⟨tail, rfl⟩ := List.head?_eq_some_iff.mp head
  have bound := first.toNat_lt
  by_cases single : first < 0x80
  · -- a byte that is its own encoding
    rw [if_pos single] at found
    obtain ⟨whole, kind, taken, -, payload⟩ := cut_eq_some found
    rw [List.take_succ_cons, List.take_zero] at taken payload
    rw [List.drop_zero] at payload
    refine ⟨whole, ?_, ?_⟩
    · rw [Item.encoding, kind, if_neg Bool.false_ne_true, payload, taken, encodeBytes, if_pos]
      exact ⟨rfl, by simpa using single⟩
    · have room : 256 ^ 1 ≤ 256 ^ usize := Nat.pow_le_pow_right (by decide) byte
      have below := succ_maxOf usize
      rw [taken, List.length_singleton]
      omega
  rw [if_neg single] at found
  have least : (0x80 : UInt8) ≤ first := UInt8.not_lt.mp single
  by_cases string : first ≤ 0xb7
  · -- a short string
    rw [if_pos string] at found
    obtain ⟨body, sliced, found⟩ := Option.bind_eq_some_iff.mp found
    obtain ⟨wrapped, found⟩ := Option.ite_none_left_eq_some.mp found
    have most : first.toNat - (0x80 : UInt8).toNat ≤ 55 := by
      have high := UInt8.le_iff_toNat_le.mp string
      have top : (0xb7 : UInt8).toNat = 0xb7 := rfl
      have low : (0x80 : UInt8).toNat = 0x80 := rfl
      omega
    have same := (slice_eq_some sliced).2
    obtain ⟨-, -, -, -, payload⟩ := cut_eq_some found
    obtain ⟨whole, kind, written, measure, room⟩ := short_eq_some byte least most found
    refine ⟨whole, ?_, room⟩
    rw [Item.encoding, kind, if_neg Bool.false_ne_true, encodeBytes, if_neg, written]
    rintro ⟨one, ascii⟩
    refine wrapped ⟨measure.symm.trans one, ?_⟩
    rwa [same, ← payload]
  rw [if_neg string] at found
  have past : 0xb7 < first.toNat := UInt8.lt_iff_toNat_lt.mp (UInt8.not_le.mp string)
  by_cases longString : first ≤ 0xbf
  · -- a long string
    rw [if_pos longString] at found
    obtain ⟨whole, kind, high, written, width, room⟩ := long_eq_some wide found
    refine ⟨whole, ?_, room⟩
    have narrow : ¬ (item.payload.length = 1 ∧ item.payload.all (· < 0x80)) := by omega
    have header := ofNat_pred first 0xb7 (UInt8.le_of_lt (UInt8.not_le.mp string))
    rw [Item.encoding, kind, if_neg Bool.false_ne_true, encodeBytes, if_neg narrow, encodeHeader,
      if_neg (by omega), written]
    dsimp only
    rw [width, List.cons_append]
    exact congrArg (· :: _) header.symm
  rw [if_neg longString] at found
  have listed : (0xc0 : UInt8) ≤ first := by
    rw [UInt8.le_iff_toNat_le]
    have beyond := UInt8.lt_iff_toNat_lt.mp (UInt8.not_le.mp longString)
    exact beyond
  by_cases list : first ≤ 0xf7
  · -- a short list
    rw [if_pos list] at found
    have most : first.toNat - (0xc0 : UInt8).toNat ≤ 55 := by
      have high := UInt8.le_iff_toNat_le.mp list
      have top : (0xf7 : UInt8).toNat = 0xf7 := rfl
      have low : (0xc0 : UInt8).toNat = 0xc0 := rfl
      omega
    obtain ⟨whole, kind, written, -, room⟩ := short_eq_some byte listed most found
    refine ⟨whole, ?_, room⟩
    rw [Item.encoding, kind, if_pos rfl, encodeList, written]
  · -- a long list
    rw [if_neg list] at found
    obtain ⟨whole, kind, high, written, width, room⟩ := long_eq_some wide found
    refine ⟨whole, ?_, room⟩
    have header := ofNat_pred first 0xf7 (UInt8.le_of_lt (UInt8.not_le.mp list))
    rw [Item.encoding, kind, if_pos rfl, encodeList, encodeHeader, if_neg (by omega), written]
    dsimp only
    rw [width, List.cons_append]
    exact congrArg (· :: _) header.symm

theorem itemsIn_eq_some {rounds : ℕ} {items : List Item} (byte : 1 ≤ usize) (wide : usize ≤ 8)
    (found : itemsIn usize rounds bytes = some items) :
    bytes = (items.map Item.whole).flatten ∧
      ∀ item ∈ items, item.whole = item.encoding ∧ item.whole.length ≤ maxOf usize := by
  induction rounds generalizing bytes items with
  | zero =>
    cases bytes with
    | nil =>
      cases found
      exact ⟨rfl, fun item member => absurd member List.not_mem_nil⟩
    | cons first tail => cases found
  | succ rounds ih =>
    cases bytes with
    | nil =>
      cases found
      exact ⟨rfl, fun item member => absurd member List.not_mem_nil⟩
    | cons first tail =>
      obtain ⟨⟨first, rest⟩, here, found⟩ := Option.bind_eq_some_iff.mp found
      obtain ⟨others, there, same⟩ := Option.bind_eq_some_iff.mp found
      cases same
      obtain ⟨whole, written, room⟩ := split_eq_some byte wide here
      obtain ⟨below, each⟩ := ih there
      refine ⟨?_, List.forall_mem_cons.mpr ⟨⟨written, room⟩, each⟩⟩
      rw [whole, below, List.map_cons, List.flatten_cons]

end Sized

/-- An item that is read is its encoding, and what follows it. -/
theorem split_eq_some (found : split bytes = some (item, rest)) :
    bytes = item.whole ++ rest ∧ item.whole = item.encoding ∧ item.whole.length ≤ usizeMax :=
  Sized.split_eq_some (by decide) (by decide) (split_eq_sized ▸ found)

/-! ## Lists -/

theorem itemsIn_eq_some {rounds : ℕ} {items : List Item} (found : itemsIn rounds bytes = some items) :
    bytes = (items.map Item.whole).flatten ∧
      ∀ item ∈ items, item.whole = item.encoding ∧ item.whole.length ≤ usizeMax :=
  Sized.itemsIn_eq_some (by decide) (by decide) (itemsIn_eq_sized rounds bytes ▸ found)

/-- A list that is read is the list of its items' encodings. -/
theorem listItems_eq_some {items : List Item} (found : listItems bytes = some items) :
    bytes = encodeList (items.map Item.whole).flatten ∧ bytes.length ≤ usizeMax ∧
      ∀ item ∈ items, item.whole = item.encoding ∧ item.whole.length ≤ usizeMax := by
  obtain ⟨⟨head, rest⟩, here, found⟩ := Option.bind_eq_some_iff.mp found
  obtain ⟨ends, found⟩ := Option.ite_none_right_eq_some.mp found
  obtain ⟨list, found⟩ := Option.ite_none_right_eq_some.mp found
  obtain ⟨whole, written, room⟩ := split_eq_some here
  obtain ⟨payload, each⟩ := itemsIn_eq_some found
  rw [ends, List.append_nil] at whole
  refine ⟨?_, whole ▸ room, each⟩
  rw [whole, written, Item.encoding, if_pos list, payload]

end Apogee.Rlp
