import Apogee.Rlp.Bounds

/-! # Values

A value is a byte string or a list of values. Splitting items apart, list after list,
reads exactly the bytes a value is written to, and never stops the guest.
-/

namespace Apogee.Rlp

open Bounds (Attempt expected)

/-- A byte string, or a list of values. -/
inductive Value where
  | string (payload : List UInt8)
  | list (values : List Value)

mutual

/-- A value's encoding. -/
def Value.encode : Value → List UInt8
  | .string payload => encodeBytes payload
  | .list values => encodeList (Value.encodeAll values)

/-- Values' encodings, one after the other. -/
def Value.encodeAll : List Value → List UInt8
  | [] => []
  | value :: values => value.encode ++ Value.encodeAll values

end

namespace Value

theorem encodeAll_eq (values : List Value) : encodeAll values = (values.map encode).flatten := by
  induction values with
  | nil => rfl
  | cons value values ih => rw [encodeAll, ih, List.map_cons, List.flatten_cons]

/-- The item a value is split off as. -/
def item : Value → Item
  | .string payload => ⟨false, payload, encodeBytes payload⟩
  | .list values => ⟨true, encodeAll values, encodeList (encodeAll values)⟩

theorem item_whole (value : Value) : value.item.whole = value.encode := by
  cases value with
  | string payload => exact encode.eq_1 payload |>.symm
  | list values => exact encode.eq_2 values |>.symm

theorem item_encoding (value : Value) : value.item.whole = value.item.encoding := by
  cases value with
  | string payload => rfl
  | list values => rfl

theorem length_encode_le {value : Value} {values : List Value} (member : value ∈ values) :
    value.encode.length ≤ (encodeAll values).length := by
  rw [encodeAll_eq]
  exact (List.sublist_flatten_of_mem (List.mem_map_of_mem member)).length_le

end Value

theorem Item.encoding_ne_nil (item : Item) : item.encoding ≠ [] := by
  unfold Item.encoding
  by_cases list : item.list
  · rw [if_pos list]
    exact List.append_ne_nil_of_left_ne_nil (encodeHeader_ne_nil _ _) _
  · rw [if_neg list]
    exact encodeBytes_ne_nil _

namespace Sized

variable {usize : ℕ} {item : Item}

/-- An item in the form it is written in, of a length that a `usize` holds. -/
def Written (usize : ℕ) (item : Item) : Prop :=
  item.whole = item.encoding ∧ item.whole.length ≤ maxOf usize

theorem Written.split (wide : usize ≤ 8) (written : Written usize item) (rest : List UInt8) :
    Sized.split usize (item.whole ++ rest) = some (item, rest) := by
  obtain ⟨list, payload, whole⟩ := item
  obtain ⟨form, short⟩ := written
  cases list with
  | false =>
    have same : whole = encodeBytes payload := form
    rw [same] at short ⊢
    exact split_encodeBytes payload rest wide short
  | true =>
    have same : whole = encodeList payload := form
    rw [same] at short ⊢
    exact split_encodeList payload rest wide short

/-- Items in a row are read back. -/
theorem itemsIn_written (wide : usize ≤ 8) {items : List Item}
    (written : ∀ item ∈ items, Written usize item) {rounds : ℕ}
    (enough : (items.map Item.whole).flatten.length ≤ rounds) :
    itemsIn usize rounds (items.map Item.whole).flatten = some items := by
  induction items generalizing rounds with
  | nil =>
    cases rounds with
    | zero => rfl
    | succ rounds => rfl
  | cons item items ih =>
    obtain ⟨here, others⟩ := List.forall_mem_cons.mp written
    rw [List.map_cons, List.flatten_cons] at enough ⊢
    have split := here.split wide (items.map Item.whole).flatten
    have present : item.whole ≠ [] := here.1 ▸ item.encoding_ne_nil
    obtain ⟨first, tail, form⟩ := List.exists_cons_of_ne_nil present
    rw [List.length_append] at enough
    rw [form] at split enough ⊢
    rw [List.length_cons] at enough
    cases rounds with
    | zero => exact absurd enough (by omega)
    | succ rounds =>
      rw [List.cons_append] at split ⊢
      rw [itemsIn.eq_def]
      dsimp only
      rw [split, Option.bind_eq_bind, Option.bind_some]
      dsimp only
      rw [ih others (by omega)]
      rfl

theorem items_list (wide : usize ≤ 8) {parts : List Item} (written : ∀ part ∈ parts,
    Written usize part)
    (whole : List UInt8) : items usize ⟨true, (parts.map Item.whole).flatten,
      whole⟩ = some parts := by
  rw [items, if_pos rfl]
  exact itemsIn_written wide written le_rfl

theorem items_eq_some (byte : 1 ≤ usize) (wide : usize ≤ 8) {parts : List Item}
    (written : Written usize item) (found : items usize item = some parts) :
    item.whole = encodeList (parts.map Item.whole).flatten ∧ ∀ part ∈ parts,
      Written usize part := by
  obtain ⟨list, found⟩ := Option.ite_none_right_eq_some.mp found
  obtain ⟨payload, each⟩ := itemsIn_eq_some byte wide found
  refine ⟨?_, each⟩
  rw [written.1, Item.encoding, if_pos list, payload]

end Sized

/-! ## Reading -/

namespace Bounds

variable (usize : ℕ)

/-- The value of an item, lists read down to a depth. -/
def tree : ℕ → Item → Attempt Value
  | 0, _ => .error .malformed
  | depth + 1, item =>
    if item.list then do
      let parts ← items usize item
      let values ← parts.mapM (tree depth)
      pure (.list values)
    else pure (.string item.payload)

/-- The one value the bytes are. An item in a list is shorter than the list, so as many
lists inside lists as there are bytes are enough. -/
def decode (bytes : List UInt8) : Attempt Value := do
  let (head, rest) ← split usize bytes
  if rest = [] then tree usize bytes.length head else .error .malformed

variable {usize} {α β : Type}

theorem mapM_ok {f : α → Attempt β} {g : β → α} {values : List β}
    (each : ∀ value ∈ values, f (g value) = .ok value) : (values.map g).mapM f = .ok values := by
  induction values with
  | nil => rfl
  | cons value values ih =>
    obtain ⟨here, others⟩ := List.forall_mem_cons.mp each
    rw [List.map_cons, List.mapM_cons, here, ok_bind, ih others]
    rfl

theorem map_of_mapM {γ : Type} {f : α → Attempt β} {g : α → γ} {h : β → γ} {xs : List α}
    {values : List β} (each : ∀ x ∈ xs, ∀ value, f x = .ok value → g x = h value)
    (found : xs.mapM f = .ok values) : xs.map g = values.map h := by
  induction xs generalizing values with
  | nil =>
    cases found
    rfl
  | cons x xs ih =>
    obtain ⟨here, others⟩ := List.forall_mem_cons.mp each
    rw [List.mapM_cons] at found
    cases read : f x with
    | error stop =>
      rw [read] at found
      cases found
    | ok value =>
      rw [read, ok_bind] at found
      cases later : xs.mapM f with
      | error stop =>
        rw [later] at found
        cases found
      | ok rest =>
        rw [later] at found
        cases found
        rw [List.map_cons, List.map_cons, here value read, ih others later]

theorem mapM_ne_panic {f : α → Attempt β} {xs : List α} (each : ∀ x ∈ xs, f x ≠ .error .panic) :
    xs.mapM f ≠ .error .panic := by
  induction xs with
  | nil => exact fun stopped => (by cases stopped)
  | cons x xs ih =>
    obtain ⟨here, others⟩ := List.forall_mem_cons.mp each
    intro stopped
    rw [List.mapM_cons] at stopped
    cases read : f x with
    | error stop =>
      rw [read, error_bind] at stopped
      rw [read] at here
      exact here (congrArg Except.error (Except.error.inj stopped))
    | ok value =>
      rw [read, ok_bind] at stopped
      cases later : xs.mapM f with
      | error stop =>
        rw [later, error_bind] at stopped
        exact ih others (later.trans stopped)
      | ok rest =>
        rw [later] at stopped
        cases stopped

variable {item : Item} {depth : ℕ}

/-- A value that is read is what was written. -/
theorem tree_sound (byte : 1 ≤ usize) (wide : usize ≤ 8) {value : Value}
    (written : Sized.Written usize item) (found : tree usize depth item = .ok value) :
    item.whole = value.encode := by
  induction depth generalizing item value with
  | zero => cases found
  | succ depth ih =>
    rw [tree] at found
    by_cases list : item.list
    · rw [if_pos list, items_eq byte] at found
      cases listed : Sized.items usize item with
      | none =>
        rw [listed] at found
        cases found
      | some parts =>
        rw [listed, expected, ok_bind] at found
        obtain ⟨whole, each⟩ := Sized.items_eq_some byte wide written listed
        cases read : parts.mapM (tree usize depth) with
        | error stop =>
          rw [read] at found
          cases found
        | ok values =>
          rw [read, ok_bind] at found
          cases found
          have wholes := map_of_mapM (fun part member value read => ih (each part member) read) read
          rw [whole, wholes, Value.encode, Value.encodeAll_eq]
    · rw [if_neg list] at found
      cases found
      rw [written.1, Item.encoding, if_neg list, Value.encode]

/-- What a value is written to is read back. -/
theorem tree_item (byte : 1 ≤ usize) (wide : usize ≤ 8) {value : Value}
    (short : value.encode.length ≤ maxOf usize) (deep : value.encode.length ≤ depth) :
    tree usize depth value.item = .ok value := by
  induction depth generalizing value with
  | zero =>
    have none := List.length_eq_zero_iff.mp (Nat.le_zero.mp deep)
    rw [← value.item_whole, value.item_encoding] at none
    exact absurd none value.item.encoding_ne_nil
  | succ depth ih =>
    rw [tree]
    cases value with
    | string payload => rfl
    | list values =>
      rw [Value.encode] at short deep
      have inside := length_lt_encodeList (Value.encodeAll values)
      have within : ∀ value ∈ values, value.encode.length ≤ maxOf usize ∧
          value.encode.length ≤ depth := by
        intro value member
        have below := Value.length_encode_le member
        omega
      have written : ∀ part ∈ values.map Value.item, Sized.Written usize part :=
        List.forall_mem_map.mpr fun value member =>
          ⟨value.item_encoding, value.item_whole ▸ (within value member).1⟩
      have wholes : ((values.map Value.item).map Item.whole).flatten = Value.encodeAll values := by
        rw [List.map_map, Value.encodeAll_eq]
        exact congrArg List.flatten (List.map_congr_left fun value _ => value.item_whole)
      have listed := Sized.items_list wide written (encodeList (Value.encodeAll values))
      rw [wholes] at listed
      rw [Value.item, if_pos rfl, items_eq byte, listed, expected, ok_bind,
        mapM_ok fun value member => ih (within value member).1 (within value member).2]
      rfl

theorem tree_ne_panic (byte : 1 ≤ usize) : tree usize depth item ≠ .error .panic := by
  induction depth generalizing item with
  | zero => exact fun stopped => (by cases stopped)
  | succ depth ih =>
    rw [tree]
    by_cases list : item.list
    · rw [if_pos list, items_eq byte]
      cases Sized.items usize item with
      | none => exact fun stopped => (by cases stopped)
      | some parts =>
        rw [expected, ok_bind]
        intro stopped
        cases read : parts.mapM (tree usize depth) with
        | error stop =>
          rw [read, error_bind] at stopped
          exact mapM_ne_panic (fun part _ => ih)
            (read.trans (congrArg Except.error (Except.error.inj stopped)))
        | ok values =>
          rw [read] at stopped
          cases stopped
    · rw [if_neg list]
      exact fun stopped => (by cases stopped)

variable {bytes : List UInt8}

theorem decode_eq (byte : 1 ≤ usize) : decode usize bytes = expected (Sized.split usize bytes) >>=
    fun found => if found.2 = [] then tree usize bytes.length found.1 else .error .malformed := by
  rw [decode, split_eq byte]

/-- Reading never stops the guest. -/
theorem decode_ne_panic (byte : 1 ≤ usize) : decode usize bytes ≠ .error .panic := by
  rw [decode_eq byte]
  cases Sized.split usize bytes with
  | none => exact fun stopped => (by cases stopped)
  | some found =>
    rw [expected, ok_bind]
    by_cases ends : found.2 = []
    · rw [if_pos ends]
      exact tree_ne_panic byte
    · rw [if_neg ends]
      exact fun stopped => (by cases stopped)

/-- **Exactly the encodings are read**, each as the value it encodes, when a `usize`
counts their bytes. -/
theorem decode_iff (byte : 1 ≤ usize) (wide : usize ≤ 8) {value : Value} :
    decode usize bytes = .ok value ↔ bytes = value.encode ∧ bytes.length ≤ maxOf usize := by
  rw [decode_eq byte]
  constructor
  · intro found
    cases here : Sized.split usize bytes with
    | none =>
      rw [here] at found
      cases found
    | some split =>
      obtain ⟨item, rest⟩ := split
      rw [here, expected, ok_bind] at found
      obtain ⟨whole, written⟩ := Sized.split_eq_some byte wide here
      by_cases ends : rest = []
      · rw [if_pos ends] at found
        rw [whole, ends, List.append_nil]
        exact ⟨tree_sound byte wide written found, written.2⟩
      · rw [if_neg ends] at found
        cases found
  · rintro ⟨rfl, counted⟩
    have written : Sized.Written usize value.item :=
      ⟨value.item_encoding, value.item_whole ▸ counted⟩
    have split := written.split wide []
    rw [List.append_nil, value.item_whole] at split
    rw [split, expected, ok_bind, if_pos rfl]
    exact tree_item byte wide counted le_rfl

end Bounds

end Apogee.Rlp
