import Apogee.Mpt.Hostile
import Apogee.Mpt.Leaves
import Apogee.Mpt.Strict
import Mathlib.Data.List.GetD

/-! # Nodes that encode to what they were parsed from

A parse goes by the kinds and the number of a node's items. What it accepts encodes to the
bytes it was given just when no list stands in the place of a path or a value, and a child
is inline just when it is under 32 bytes.
-/

namespace Apogee.Mpt

open Node Rlp
open Math (forall₂_getElem?)

/-! ## The hex prefix -/

theorem pairs_nibblesOf (bytes : List UInt8) : pairs (nibblesOf bytes) = bytes := by
  induction bytes with
  | nil => rfl
  | cons byte bytes ih =>
    have step : nibblesOf (byte :: bytes) = highNibble byte :: lowNibble byte :: nibblesOf bytes := rfl
    rw [step, pairs, pair_nibbles, ih]

theorem even_nibblesOf (bytes : List UInt8) : (nibblesOf bytes).length % 2 = 0 := by
  induction bytes with
  | nil => rfl
  | cons byte bytes ih =>
    have step : nibblesOf (byte :: bytes) = highNibble byte :: lowNibble byte :: nibblesOf bytes := rfl
    rw [step, List.length_cons, List.length_cons]
    omega

/-- A path is encoded as it was decoded. -/
theorem hpEncode_of_hpDecode {bytes : List UInt8} {path : Path} {leaf : Bool}
    (decoded : hpDecode bytes = some (path, leaf)) : hpEncode path leaf = bytes := by
  obtain ⟨first, head, decoded⟩ := Option.bind_eq_some_iff.mp decoded
  obtain ⟨tail, rfl⟩ := List.head?_eq_some_iff.mp head
  have bound := first.toNat_lt
  have even := even_nibblesOf tail
  obtain ⟨small, decoded⟩ := Option.ite_none_left_eq_some.mp decoded
  have flags : ∀ leaf odd, (flag leaf odd).val = (if leaf then 2 else 0) + if odd then 1 else 0 := by
    decide
  by_cases odd : first.toNat / 16 % 2 = 1
  · rw [if_pos odd] at decoded
    cases decoded
    unfold hpEncode
    rw [if_pos (by rw [List.length_cons, List.tail_cons]; omega)]
    dsimp only
    rw [List.tail_cons, pairs_nibblesOf]
    refine congrArg (· :: tail) (UInt8.toNat_inj.mp ?_)
    rw [pair_toNat, flags, lowNibble, Fin.val_ofNat]
    by_cases two : first.toNat / 16 / 2 = 1
    · rw [if_pos (decide_eq_true two)]
      simp only [if_true]
      omega
    · rw [if_neg (by simpa using two)]
      simp only [if_true]
      omega
  · rw [if_neg odd] at decoded
    obtain ⟨padding, decoded⟩ := Option.ite_none_left_eq_some.mp decoded
    cases decoded
    unfold hpEncode
    rw [if_neg (by rw [List.tail_cons]; omega), List.tail_cons, pairs_nibblesOf]
    refine congrArg (· :: tail) (UInt8.toNat_inj.mp ?_)
    rw [pair_toNat, flags]
    by_cases two : first.toNat / 16 / 2 = 1
    · rw [if_pos (decide_eq_true two)]
      simp only [Bool.false_eq_true, if_false, Fin.val_zero]
      omega
    · rw [if_neg (by simpa using two)]
      simp only [Bool.false_eq_true, if_false, Fin.val_zero]
      omega

/-! ## What a parse comes to -/

/-- Whether the path of a node of two items is a leaf's. -/
def isLeaf (path : Item) : Bool := (hpDecode path.payload).any Prod.snd

/-- The items that hold a node's children. -/
def childSlots : List Item → List Item
  | [path, rest] => if isLeaf path then [] else [rest]
  | items => items.take 16

/-- The items that hold a path or a value. -/
def fields : List Item → List Item
  | [path, rest] => if isLeaf path then [path, rest] else [path]
  | items => items.drop 16

/-- The bytes that a child's item leads to: its own when it is inline, else those under
the hash. -/
def leadsTo (db : NodeMap) (slot : Item) : Option (List UInt8) :=
  if slot.list then some slot.whole
  else if exact : slot.payload.length = 32 then db.get ⟨slot.payload, exact⟩ else none

/-- The byte strings that a parse from a root comes to. -/
inductive Visits (db : NodeMap) (root : Word32) : List UInt8 → Prop
  | start {bytes : List UInt8} (filled : root ≠ emptyTrieRoot) (found : db.get root = some bytes) :
      Visits db root bytes
  | child {bytes below : List UInt8} {items : List Item} {slot : Item} (visited : Visits db root bytes)
      (read : listItems bytes = some items) (member : slot ∈ childSlots items)
      (leads : leadsTo db slot = some below) : Visits db root below

/-- The kinds of a node's items are those it would be written with. -/
def Plain (db : NodeMap) (bytes : List UInt8) : Prop :=
  ∀ items, listItems bytes = some items → (∀ item ∈ fields items, item.list = false) ∧
    ∀ slot ∈ childSlots items, ∀ below, leadsTo db slot = some below →
      (slot.list = true ↔ below.length < 32)

variable {keccak : List UInt8 → Word32} {nodes : List (List UInt8)} {root : Word32}

/-- How a parent names the node that a slot led to. -/
theorem named_of_childOf {parse : List UInt8 → Except MptError Node} {slot : Item} {child : Node}
    (written : slot.whole = slot.encoding)
    (kinds : ∀ below, leadsTo (NodeMap.new keccak nodes) slot = some below →
      (slot.list = true ↔ below.length < 32))
    (encodes : ∀ below node, leadsTo (NodeMap.new keccak nodes) slot = some below →
      parse below = .ok node → node.encode keccak = some below)
    (ran : childOf (NodeMap.new keccak nodes) parse slot = .ok child) :
    child.named keccak (child.encode keccak) = some slot.whole := by
  have given : ∀ {node : Node} {bytes : List UInt8}, node.encode keccak = some bytes →
      node.named keccak (node.encode keccak) =
        some (if bytes.length < 32 then bytes else encodeBytes (keccak bytes).1) := by
    intro node bytes encoded
    rw [encoded]
    cases node with
    | blinded hash => cases encoded
    | _ => rfl
  unfold childOf at ran
  by_cases list : slot.list
  · rw [if_pos list] at ran
    have leads : leadsTo (NodeMap.new keccak nodes) slot = some slot.whole := if_pos list
    rw [given (encodes _ _ leads ran), if_pos ((kinds _ leads).mp list)]
  rw [if_neg list] at ran
  rw [Item.encoding, if_neg list] at written
  by_cases none : slot.payload = []
  · rw [if_pos none] at ran
    cases ran
    rw [written, none]
    rfl
  rw [if_neg none] at ran
  by_cases exact : slot.payload.length = 32
  · rw [dif_pos exact] at ran
    cases found : (NodeMap.new keccak nodes).get ⟨slot.payload, exact⟩ with
    | none =>
      rw [found] at ran
      cases ran
      rw [written]
      rfl
    | some below =>
      rw [found] at ran
      have leads : leadsTo (NodeMap.new keccak nodes) slot = some below := by
        rw [leadsTo, if_neg list, dif_pos exact, found]
      have long : ¬ below.length < 32 := fun short => list ((kinds _ leads).mpr short)
      rw [given (encodes _ _ leads ran), if_neg long, (NodeMap.get_new found).2, written]
  · rw [dif_neg exact] at ran
    cases ran

theorem mapM_eq_map {α β : Type} {f : α → Option β} {g : α → β} {xs : List α}
    (each : ∀ x, f x = some (g x)) : xs.mapM f = some (xs.map g) := by
  rw [show f = fun x => pure (g x) from funext each, List.mapM_pure]
  rfl

theorem getElem_of_mapM_ok {ε α β : Type} {f : α → Except ε β} {xs : List α} {ys : List β}
    (ran : xs.mapM f = .ok ys) : ys.length = xs.length ∧
      ∀ (i : ℕ) x y, xs[i]? = some x → ys[i]? = some y → f x = .ok y := by
  refine ⟨(Math.mapM_ok ran).length_eq.symm, fun i x y at_x at_y => ?_⟩
  obtain ⟨other, found, here⟩ := forall₂_getElem? (Math.mapM_ok ran) at_x
  cases found.symm.trans at_y
  exact here

theorem whole_of_string {item : Item} (written : item.whole = item.encoding)
    (string : item.list = false) : item.whole = encodeBytes item.payload := by
  rw [written, Item.encoding, string, if_neg Bool.false_ne_true]

/-- Sixteen children and a value are the items of a branch. -/
theorem take_append_last {items : List Item} {value : Item} (wide : items.length = 17)
    (last : items[16]? = some value) : items.take 16 ++ [value] = items ∧ items.drop 16 = [value] := by
  have rest : items.drop 16 = [value] := by
    obtain ⟨inside, same⟩ := List.getElem?_eq_some_iff.mp last
    rw [List.drop_eq_getElem_cons inside, same, List.drop_of_length_le (by omega)]
  exact ⟨rest ▸ List.take_append_drop 16 items, rest⟩

/-- The node kinds' own item functions. -/
theorem slots_of_leaf {path rest : Item} {nibbles : Path}
    (decoded : hpDecode path.payload = some (nibbles, true)) :
    childSlots [path, rest] = [] ∧ fields [path, rest] = [path, rest] := by
  have leaf : isLeaf path = true := by
    rw [isLeaf, decoded]
    rfl
  exact ⟨if_pos leaf, if_pos leaf⟩

theorem slots_of_ext {path rest : Item} {nibbles : Path}
    (decoded : hpDecode path.payload = some (nibbles, false)) :
    childSlots [path, rest] = [rest] ∧ fields [path, rest] = [path] := by
  have ext : ¬ isLeaf path = true := by
    rw [isLeaf, decoded]
    exact Bool.false_ne_true
  exact ⟨if_neg ext, if_neg ext⟩

theorem slots_of_branch {items : List Item} (wide : items.length = 17) :
    childSlots items = items.take 16 ∧ fields items = items.drop 16 := by
  unfold childSlots fields
  split
  · cases wide
  · exact ⟨rfl, rfl⟩

/-- Where every kind is as written, what is parsed encodes to its bytes. -/
theorem encode_of_plain (plain : ∀ bytes, Visits (NodeMap.new keccak nodes) root bytes →
      Plain (NodeMap.new keccak nodes) bytes) (levels : ℕ) {bytes : List UInt8} {node : Node}
    (visited : Visits (NodeMap.new keccak nodes) root bytes)
    (ran : parseAt (NodeMap.new keccak nodes) levels bytes = .ok node) :
    node.encode keccak = some bytes := by
  induction levels generalizing bytes node with
  | zero => cases ran
  | succ levels ih =>
    obtain ⟨items, read, found⟩ := parseAt_cases ran
    obtain ⟨whole, -, each⟩ := listItems_eq_some read
    obtain ⟨strings, kinds⟩ := plain bytes visited items read
    have child : ∀ slot ∈ childSlots items, slot ∈ items → ∀ node,
        childOf (NodeMap.new keccak nodes) (parseAt (NodeMap.new keccak nodes) levels) slot = .ok node →
        node.named keccak (node.encode keccak) = some slot.whole := fun slot member listed node ran =>
      named_of_childOf (each slot listed).1 (kinds slot member)
        (fun below node leads parsed => ih (.child visited read member leads) parsed) ran
    rcases found with ⟨first, second, path, rfl, decoded, rfl⟩ |
      ⟨first, second, path, under, rfl, decoded, some, below, rfl⟩ |
      ⟨slots, value, wide, last, below, rfl⟩
    · obtain ⟨-, texts⟩ := @slots_of_leaf first second _ decoded
      rw [texts] at strings
      obtain ⟨⟨one, -⟩, two⟩ := List.forall_mem_cons.mp each
      obtain ⟨plainPath, plainValue⟩ := List.forall_mem_cons.mp strings
      rw [whole, encode, List.map_cons, List.map_cons, List.map_nil, List.flatten_cons,
        List.flatten_cons, List.flatten_nil, List.append_nil, whole_of_string one plainPath,
        whole_of_string (two second (List.mem_singleton_self _)).1
          (plainValue second (List.mem_singleton_self _)), hpEncode_of_hpDecode decoded]
    · obtain ⟨branches, texts⟩ := @slots_of_ext first second _ decoded
      rw [texts] at strings
      rw [branches] at child
      have named := child second (List.mem_singleton_self _)
        (List.mem_cons_of_mem _ (List.mem_singleton_self _)) under below
      rw [whole, encode, if_neg some, named, Option.map_some, List.map_cons, List.map_cons, List.map_nil,
        List.flatten_cons, List.flatten_cons, List.flatten_nil, List.append_nil,
        whole_of_string (each first List.mem_cons_self).1 (strings first (List.mem_singleton_self _)),
        hpEncode_of_hpDecode decoded]
    · obtain ⟨branches, texts⟩ := slots_of_branch wide
      obtain ⟨parts, rest⟩ := take_append_last wide last
      rw [texts, rest] at strings
      rw [branches] at child
      obtain ⟨long, parsed⟩ := getElem_of_mapM_ok below
      have taken : (items.take 16).length = 16 := by rw [List.length_take, wide]; rfl
      have named : ∀ i : Nibble, (slots.getD i.val .empty).named keccak
          ((slots.getD i.val .empty).encode keccak) =
            some (((items.take 16).map Item.whole).getD i.val []) := by
        intro i
        have here : i.val < (items.take 16).length := taken.symm ▸ i.isLt
        have there : i.val < slots.length := long.symm ▸ here
        have ran := parsed i.val _ _ (List.getElem?_eq_getElem here) (List.getElem?_eq_getElem there)
        have member := List.getElem_mem here
        rw [List.getD_eq_getElem _ _ there, List.getD_eq_getElem _ _ (by rwa [List.length_map]),
          List.getElem_map]
        exact child _ member (List.mem_of_mem_take member) _ ran
      have references : (List.finRange 16).map
          (fun i => ((items.take 16).map Item.whole).getD i.val []) = (items.take 16).map Item.whole := by
        refine List.ext_getElem (by rw [List.length_map, List.length_finRange, List.length_map, taken]) ?_
        intro i here there
        rw [List.getElem_map, List.getElem_finRange]
        exact List.getD_eq_getElem _ _ there
      have lastPart : value.whole = encodeBytes value.payload := by
        refine whole_of_string (each value ?_).1 (strings value (List.mem_singleton_self _))
        exact List.mem_of_getElem? last
      rw [encode, mapM_eq_map named, Option.map_some, references, whole, ← lastPart]
      congr 2
      rw [← parts, List.map_append, List.flatten_append, parts, List.map_cons, List.map_nil,
        List.flatten_cons, List.flatten_nil, List.append_nil]

/-! ## And the other way -/

/-- Where a slot leads, its child was parsed. -/
theorem parse_of_childOf {db : NodeMap} {parse : List UInt8 → Except MptError Node} {slot : Item}
    {child : Node} {below : List UInt8} (ran : childOf db parse slot = .ok child)
    (leads : leadsTo db slot = some below) : parse below = .ok child := by
  unfold leadsTo at leads
  unfold childOf at ran
  by_cases list : slot.list
  · rw [if_pos list] at ran leads
    rw [← Option.some.inj leads]
    exact ran
  rw [if_neg list] at ran leads
  by_cases exact : slot.payload.length = 32
  · have filled : slot.payload ≠ [] := by
      intro none
      rw [none] at exact
      cases exact
    rw [dif_pos exact] at ran leads
    rw [if_neg filled, leads] at ran
    exact ran
  · rw [dif_neg exact] at leads
    cases leads

/-- A slot that leads nowhere holds nothing or a hash. -/
theorem childOf_of_none {db : NodeMap} {parse : List UInt8 → Except MptError Node} {slot : Item}
    {child : Node} (ran : childOf db parse slot = .ok child) (leads : leadsTo db slot = none) :
    child = .empty ∨ ∃ hash, child = .blinded hash := by
  unfold leadsTo at leads
  unfold childOf at ran
  by_cases list : slot.list
  · rw [if_pos list] at leads
    cases leads
  rw [if_neg list] at ran leads
  by_cases none : slot.payload = []
  · rw [if_pos none] at ran
    cases ran
    exact Or.inl rfl
  rw [if_neg none] at ran
  by_cases exact : slot.payload.length = 32
  · rw [dif_pos exact] at ran leads
    rw [leads] at ran
    cases ran
    exact Or.inr ⟨_, rfl⟩
  · rw [dif_neg exact] at ran
    cases ran

theorem parseAt_filled {db : NodeMap} {levels : ℕ} {bytes : List UInt8} {node : Node}
    (ran : parseAt db levels bytes = .ok node) : node ≠ .empty := by
  cases levels with
  | zero => cases ran
  | succ levels =>
    obtain ⟨items, -, ⟨first, second, path, -, -, rfl⟩ |
      ⟨first, second, path, child, -, -, -, -, rfl⟩ | ⟨slots, value, -, -, -, rfl⟩⟩ :=
      parseAt_cases ran
    · exact Node.noConfusion
    · exact Node.noConfusion
    · exact Node.noConfusion

/-- What stands for a child in its parent's bytes is one item; when that is its slot, the
slot is inline just when the child is short. -/
theorem exists_reference {db : NodeMap} {levels : ℕ} {slot : Item} {child : Node}
    (ran : childOf db (parseAt db levels) slot = .ok child)
    (encodes : ∀ below, leadsTo db slot = some below → child.encode keccak = some below) :
    ∃ reference item, child.named keccak (child.encode keccak) = some reference ∧
      Splits reference item ∧ (item = slot → ∀ below, leadsTo db slot = some below →
        (slot.list = true ↔ below.length < 32)) := by
  have hashed : ∀ hash : Word32, (encodeBytes hash.1).length ≤ usizeMax := by
    intro hash
    have bound := length_encodeBytes_le hash.1
    rw [hash.2] at bound
    exact bound.trans (by decide)
  cases leads : leadsTo db slot with
  | none =>
    rcases childOf_of_none ran leads with rfl | ⟨hash, rfl⟩
    · exact ⟨[0x80], _, rfl, @splits_bytes [] (by decide), fun _ below held => by cases held⟩
    · exact ⟨_, _, rfl, splits_bytes (hashed hash), fun _ below held => by cases held⟩
  | some below =>
    have parsed := parse_of_childOf ran leads
    have encoded := encodes below leads
    obtain ⟨payload, written⟩ := encode_list (parseAt_filled parsed) encoded
    have named : child.named keccak (child.encode keccak) =
        some (if below.length < 32 then below else encodeBytes (keccak below).1) := by
      rw [encoded]
      cases child with
      | blinded hash => cases encoded
      | _ => rfl
    by_cases short : below.length < 32
    · rw [if_pos short] at named
      have room : (encodeList payload).length ≤ usizeMax := by
        rw [← written]
        exact short.le.trans (by decide)
      refine ⟨below, _, named, written ▸ splits_list room, ?_⟩
      rintro rfl other same
      cases same
      exact iff_of_true rfl short
    · rw [if_neg short] at named
      refine ⟨_, _, named, splits_bytes (hashed _), ?_⟩
      rintro rfl other same
      cases same
      exact iff_of_false Bool.false_ne_true short

/-- Every string that a build comes to is parsed. -/
theorem Visits.parsed {db : NodeMap} {root : Word32} {node : Node} {bytes : List UInt8}
    (ran : build db root = .ok node) (visited : Visits db root bytes) :
    ∃ levels node, parseAt db levels bytes = .ok node := by
  induction visited with
  | start filled found =>
    rw [build, if_neg filled, found] at ran
    exact ⟨_, node, ran⟩
  | @child bytes below items slot _ read member leads ih =>
    obtain ⟨levels, above, ran⟩ := ih
    cases levels with
    | zero => cases ran
    | succ levels =>
      obtain ⟨others, same, found⟩ := parseAt_cases ran
      cases read.symm.trans same
      rcases found with ⟨first, second, path, rfl, decoded, rfl⟩ |
        ⟨first, second, path, under, rfl, decoded, some, step, rfl⟩ |
        ⟨slots, value, wide, last, step, rfl⟩
      · rw [(slots_of_leaf decoded).1] at member
        exact absurd member List.not_mem_nil
      · rw [(slots_of_ext decoded).1] at member
        cases List.mem_singleton.mp member
        exact ⟨levels, under, parse_of_childOf step leads⟩
      · rw [(slots_of_branch wide).1] at member
        obtain ⟨long, each⟩ := getElem_of_mapM_ok step
        obtain ⟨i, here, rfl⟩ := List.getElem_of_mem member
        have there : i < slots.length := long.symm ▸ here
        have ran := each i _ _ (List.getElem?_eq_getElem here) (List.getElem?_eq_getElem there)
        exact ⟨levels, _, parse_of_childOf ran leads⟩

/-- A node's items are those that its encoding was put together from. -/
theorem items_of_parts {bytes : List UInt8} {items : List Item} {parts : List (List UInt8 × Item)}
    (read : listItems bytes = some items) (same : encodeList (parts.map Prod.fst).flatten = bytes)
    (splits : ∀ part ∈ parts, part.1.length ≤ usizeMax → Splits part.1 part.2) :
    items = parts.map Prod.snd := by
  have room := (listItems_eq_some read).2.1
  rw [← same] at read room
  refine Option.some.inj (read.symm.trans (listItems_encodeList (fun part member => ?_) room))
  exact splits part member (((List.sublist_flatten_of_mem (List.mem_map_of_mem member)).length_le.trans
    (length_le_encodeList _)).trans room)

/-- The part of an encoding that holds a string. -/
def stringPart (payload : List UInt8) : List UInt8 × Item :=
  (encodeBytes payload, ⟨false, payload, encodeBytes payload⟩)

/-- Where what is parsed encodes to its bytes, every kind is as written. -/
theorem plain_of_encode {levels : ℕ} {bytes : List UInt8} {node : Node}
    (ran : parseAt (NodeMap.new keccak nodes) (levels + 1) bytes = .ok node)
    (encoded : node.encode keccak = some bytes)
    (encodes : ∀ items, listItems bytes = some items → ∀ slot ∈ childSlots items,
      ∀ below child, leadsTo (NodeMap.new keccak nodes) slot = some below →
        childOf (NodeMap.new keccak nodes) (parseAt (NodeMap.new keccak nodes) levels) slot = .ok child →
        child.encode keccak = some below) :
    Plain (NodeMap.new keccak nodes) bytes := by
  intro items read
  obtain ⟨others, same, found⟩ := parseAt_cases ran
  cases read.symm.trans same
  have below := encodes items read
  rcases found with ⟨first, second, path, rfl, decoded, rfl⟩ |
    ⟨first, second, path, under, rfl, decoded, some, step, rfl⟩ |
    ⟨slots, value, wide, last, step, rfl⟩
  · obtain ⟨none, texts⟩ := @slots_of_leaf first second _ decoded
    have strings := @items_of_parts _ _ [stringPart (hpEncode path true), stringPart second.payload]
      read (by rw [← Option.some.inj encoded]; simp [stringPart]) (by
        refine List.forall_mem_cons.mpr ⟨splits_bytes, List.forall_mem_cons.mpr ⟨splits_bytes, ?_⟩⟩
        exact fun part member => absurd member List.not_mem_nil)
    rw [none, texts, strings]
    refine ⟨?_, fun slot member => absurd member List.not_mem_nil⟩
    exact List.forall_mem_cons.mpr ⟨rfl, List.forall_mem_cons.mpr
      ⟨rfl, fun item member => absurd member List.not_mem_nil⟩⟩
  · obtain ⟨branches, texts⟩ := @slots_of_ext first second _ decoded
    rw [branches] at below
    obtain ⟨reference, item, named, splits, kinds⟩ := exists_reference step
      fun bytes leads => below second (List.mem_singleton_self _) bytes under leads step
    rw [encode, if_neg some, named, Option.map_some] at encoded
    have strings := @items_of_parts _ _ [stringPart (hpEncode path false), (reference, item)] read
      (by rw [← Option.some.inj encoded]; simp [stringPart]) (by
        refine List.forall_mem_cons.mpr ⟨splits_bytes, List.forall_mem_cons.mpr ⟨fun _ => splits, ?_⟩⟩
        exact fun part member => absurd member List.not_mem_nil)
    obtain ⟨head, tail⟩ := List.cons.inj strings
    rw [branches, texts]
    refine ⟨fun text member => ?_, fun slot member bytes leads => ?_⟩
    · rw [List.mem_singleton.mp member, head]
      rfl
    · cases List.mem_singleton.mp member
      exact kinds (List.cons.inj tail).1.symm bytes leads
  · obtain ⟨branches, texts⟩ := slots_of_branch wide
    rw [branches] at below
    obtain ⟨long, parsed⟩ := getElem_of_mapM_ok step
    have taken : (items.take 16).length = 16 := by rw [List.length_take, wide]; rfl
    have inside : ∀ i : Nibble, i.val < (items.take 16).length := fun i => taken.symm ▸ i.isLt
    have ranAt : ∀ i : Nibble, childOf (NodeMap.new keccak nodes) (parseAt (NodeMap.new keccak nodes) levels)
        ((items.take 16).get ⟨i.val, inside i⟩) = .ok (slots.getD i.val .empty) := by
      intro i
      have there : i.val < slots.length := long.symm ▸ inside i
      rw [List.getD_eq_getElem _ _ there]
      exact parsed i.val _ _ (List.getElem?_eq_getElem (inside i)) (List.getElem?_eq_getElem there)
    choose reference item named splits kinds using fun i : Nibble => exists_reference (ranAt i)
      fun bytes leads => below _ (List.get_mem _ _) bytes _ leads (ranAt i)
    rw [encode, mapM_eq_map named, Option.map_some] at encoded
    have strings := @items_of_parts _ _
      ((List.finRange 16).map (fun i => (reference i, item i)) ++ [stringPart value.payload]) read
      (by rw [← Option.some.inj encoded]; simp [stringPart, Function.comp_def]) (by
        intro part member
        rcases List.mem_append.mp member with child | text
        · obtain ⟨i, -, rfl⟩ := List.mem_map.mp child
          exact fun _ => splits i
        · rw [List.mem_singleton.mp text]
          exact splits_bytes)
    have wide : ((List.finRange 16).map item).length = 16 := by
      rw [List.length_map, List.length_finRange]
    have both : items = (List.finRange 16).map item ++ [(stringPart value.payload).2] := by
      rw [strings, List.map_append, List.map_map]
      rfl
    have front : items.take 16 = (List.finRange 16).map item := by
      rw [both, List.take_left' wide]
    have back : items.drop 16 = [(stringPart value.payload).2] := by
      rw [both, List.drop_left' wide]
    rw [branches, texts, back]
    refine ⟨fun text member => ?_, fun slot member bytes leads => ?_⟩
    · rw [List.mem_singleton.mp member]
      rfl
    · obtain ⟨i, here, rfl⟩ := List.getElem_of_mem member
      refine kinds ⟨i, taken ▸ here⟩ ?_ bytes leads
      rw [List.get_eq_getElem]
      simp only [front, List.getElem_map, List.getElem_finRange]
      rfl

/-- A build's node has the root it was built for, and every string it came to is what its node
encodes to, exactly when every kind is as written. The hex prefix is one-to-one besides. -/
theorem reencodes_iff_plain (keccak : List UInt8 → Word32) (emptyRoot : keccak [0x80] = emptyTrieRoot)
    {nodes : List (List UInt8)} {root : Word32} {node : Node}
    (ran : build (NodeMap.new keccak nodes) root = .ok node) :
    ((node.root keccak = some root ∧ ∀ bytes, Visits (NodeMap.new keccak nodes) root bytes →
        ∀ levels below, parseAt (NodeMap.new keccak nodes) levels bytes = .ok below →
          below.encode keccak = some bytes) ↔
      ∀ bytes, Visits (NodeMap.new keccak nodes) root bytes → Plain (NodeMap.new keccak nodes) bytes) ∧
    (∀ path leaf, hpDecode (hpEncode path leaf) = some (path, leaf)) ∧
    ∀ first second, hpDecode first ≠ none → hpDecode first = hpDecode second → first = second := by
  refine ⟨⟨fun ⟨_, encodes⟩ bytes visited => ?_, fun plain => ⟨?_, fun bytes visited levels below parsed =>
    encode_of_plain plain levels visited parsed⟩⟩, hpDecode_hpEncode, fun first second decodes same => ?_⟩
  · obtain ⟨levels, below, parsed⟩ := visited.parsed ran
    cases levels with
    | zero => cases parsed
    | succ levels =>
      refine plain_of_encode parsed (encodes bytes visited _ below parsed) ?_
      intro items read slot member under child leads step
      exact encodes under (visited.child read member leads) levels child (parse_of_childOf step leads)
  · by_cases filled : root = emptyTrieRoot
    · rw [build, if_pos filled] at ran
      cases ran
      rw [filled, ← emptyRoot]
      rfl
    · rw [build, if_neg filled] at ran
      cases found : (NodeMap.new keccak nodes).get root with
      | none =>
        rw [found] at ran
        cases ran
      | some bytes =>
        rw [found] at ran
        have encoded := encode_of_plain plain _ (.start filled found) ran
        have hashed := (NodeMap.get_new found).2
        cases node with
        | blinded hash => cases encoded
        | _ => exact (congrArg (Option.map keccak) encoded).trans (congrArg some hashed)
  · obtain ⟨⟨path, leaf⟩, decoded⟩ := Option.ne_none_iff_exists'.mp decodes
    rw [← hpEncode_of_hpDecode decoded, hpEncode_of_hpDecode (same ▸ decoded)]

/-- A leaf whose path is a list of one byte. -/
def listedBytes : List UInt8 := [0xc3, 0xc1, 0x20, 0x05]

def listedKeccak : List UInt8 → Word32 :=
  tableHash [(listedBytes, ⟨[0xda, 0xa4, 0x25, 0x8e, 0x35, 0x01, 0x56, 0x2d, 0x10, 0xfe, 0x6d, 0xc4,
    0xb4, 0xe2, 0x95, 0xd7, 0xe4, 0xad, 0x54, 0xe7, 0x93, 0x37, 0x00, 0x78, 0x92, 0x14, 0x1d, 0xe0,
    0x4f, 0x87, 0x6e, 0xa1], rfl⟩),
    ([0xc2, 0x20, 0x05], ⟨[0xd2, 0x1b, 0x3a, 0x1a, 0xda, 0x99, 0x87, 0xe5, 0x0e, 0x2b, 0x4d, 0xc8,
    0x05, 0xbe, 0x4b, 0xea, 0x8c, 0xe4, 0x45, 0xe5, 0x6f, 0x20, 0xff, 0x15, 0x36, 0x18, 0x8e, 0xdb,
    0x1e, 0xf2, 0x8b, 0xc0], rfl⟩)]

set_option maxRecDepth 4000 in
theorem build_listed :
    build (NodeMap.new listedKeccak [listedBytes]) (listedKeccak listedBytes) = .ok (leaf [] [5]) := by
  have single : NodeMap.new listedKeccak [listedBytes] = ⟨[(listedKeccak listedBytes, listedBytes)]⟩ := by
    simp [NodeMap.new, Math.table]
  have found : NodeMap.get ⟨[(listedKeccak listedBytes, listedBytes)]⟩ (listedKeccak listedBytes) =
      some listedBytes := by
    decide
  rw [single, build, if_neg (by decide), found]
  rfl

/-- Its node, the one of the same path as a string, has another root. -/
theorem root_listed : ∃ node,
    build (NodeMap.new listedKeccak [listedBytes]) (listedKeccak listedBytes) = .ok node ∧
      node.root listedKeccak ≠ some (listedKeccak listedBytes) :=
  ⟨leaf [] [5], build_listed, by decide⟩

theorem plain_listed : ¬ ∀ bytes,
    Visits (NodeMap.new listedKeccak [listedBytes]) (listedKeccak listedBytes) bytes →
      Plain (NodeMap.new listedKeccak [listedBytes]) bytes := by
  have another : (leaf [] [5]).root listedKeccak ≠ some (listedKeccak listedBytes) := by decide
  intro plain
  exact another ((reencodes_iff_plain listedKeccak (by decide) build_listed).1.mpr plain).1

end Apogee.Mpt
