import Apogee.Mpt.View

/-! # Parsing a trie's own nodes

What a trie's node encodes to parses to a view of it: each child it names by a hash the
witness carries is that child, when no two of the strings hashed share a hash, and a
child the witness lacks stays its hash. A key of `n` nibbles is `n` nestings at most.
-/

namespace Apogee.Mpt

open Node Rlp

/-! ## The hex prefix -/

theorem pair_toNat (high low : Nibble) : (pair high low).toNat = 16 * high.val + low.val := by
  have bounds := high.isLt
  have bounds' := low.isLt
  rw [pair, UInt8.toNat_ofNat']
  omega

@[simp]
theorem highNibble_pair (high low : Nibble) : highNibble (pair high low) = high := by
  have bounds := high.isLt
  have bounds' := low.isLt
  apply Fin.ext
  rw [highNibble, pair_toNat, Fin.val_ofNat]
  omega

@[simp]
theorem lowNibble_pair (high low : Nibble) : lowNibble (pair high low) = low := by
  have bounds' := low.isLt
  apply Fin.ext
  rw [lowNibble, pair_toNat, Fin.val_ofNat]
  omega

theorem nibblesOf_pairs (path : Path) (even : path.length % 2 = 0) : nibblesOf (pairs path) = path := by
  induction path using pairs.induct with
  | case1 high low rest ih =>
    rw [List.length_cons, List.length_cons] at even
    have here : nibblesOf (pair high low :: pairs rest) = high :: low :: nibblesOf (pairs rest) := by
      rw [nibblesOf, List.flatMap_cons, highNibble_pair, lowNibble_pair]
      rfl
    rw [pairs, here, ih (by omega)]
  | case2 path short =>
    cases path with
    | nil => rfl
    | cons first rest =>
      cases rest with
      | nil => exact absurd even (by simp)
      | cons second rest => exact absurd rfl (short first second rest)

theorem hpDecode_odd (first : Nibble) (tail : List UInt8) (leaf : Bool) :
    hpDecode (pair (flag leaf true) first :: tail) = some (first :: nibblesOf tail, leaf) := by
  have bounds := first.isLt
  have flags : ∀ leaf, (flag leaf true).val = if leaf then 3 else 1 := by decide
  have high : (pair (flag leaf true) first).toNat / 16 = if leaf then 3 else 1 := by
    rw [pair_toNat, flags]
    omega
  unfold hpDecode
  rw [List.head?_cons, Option.bind_eq_bind, Option.bind_some]
  dsimp only
  rw [high, lowNibble_pair, List.tail_cons]
  cases leaf <;> rfl

theorem hpDecode_even (tail : List UInt8) (leaf : Bool) :
    hpDecode (pair (flag leaf false) 0 :: tail) = some (nibblesOf tail, leaf) := by
  unfold hpDecode
  rw [List.head?_cons, Option.bind_eq_bind, Option.bind_some, List.tail_cons]
  cases leaf <;> rfl

/-- A path is decoded as it was encoded. -/
theorem hpDecode_hpEncode (path : Path) (leaf : Bool) :
    hpDecode (hpEncode path leaf) = some (path, leaf) := by
  unfold hpEncode
  by_cases odd : path.length % 2 = 1
  · rw [if_pos odd]
    cases path with
    | nil => exact absurd odd (by decide)
    | cons first rest =>
      rw [List.length_cons] at odd
      rw [hpDecode_odd, nibblesOf_pairs rest (by omega)]
  · rw [if_neg odd, hpDecode_even, nibblesOf_pairs path (by omega)]

/-! ## Items -/

/-- An encoding that is one item off the front of whatever follows it. -/
def Splits (encoding : List UInt8) (item : Item) : Prop :=
  encoding ≠ [] ∧ ∀ rest, split (encoding ++ rest) = some (item, rest)

theorem splits_bytes {payload : List UInt8} (short : (encodeBytes payload).length ≤ usizeMax) :
    Splits (encodeBytes payload) ⟨false, payload, encodeBytes payload⟩ :=
  ⟨encodeBytes_ne_nil payload, fun rest => split_encodeBytes payload rest short⟩

theorem splits_list {payload : List UInt8} (short : (encodeList payload).length ≤ usizeMax) :
    Splits (encodeList payload) ⟨true, payload, encodeList payload⟩ :=
  ⟨encodeList_ne_nil payload, fun rest => split_encodeList payload rest short⟩

theorem itemsIn_flatten {parts : List (List UInt8 × Item)}
    (splits : ∀ part ∈ parts, Splits part.1 part.2) {rounds : ℕ}
    (enough : (parts.map Prod.fst).flatten.length ≤ rounds) :
    itemsIn rounds (parts.map Prod.fst).flatten = some (parts.map Prod.snd) := by
  induction parts generalizing rounds with
  | nil => cases rounds <;> rfl
  | cons part parts ih =>
    obtain ⟨⟨present, here⟩, later⟩ := List.forall_mem_cons.mp splits
    rw [List.map_cons, List.flatten_cons, List.length_append] at enough
    have long := List.length_pos_iff.mpr present
    obtain ⟨rounds, rfl⟩ : ∃ n, rounds = n + 1 := ⟨rounds - 1, by omega⟩
    have rest : itemsIn rounds (parts.map Prod.fst).flatten = some (parts.map Prod.snd) :=
      ih later (by omega)
    rw [List.map_cons, List.flatten_cons, List.map_cons]
    cases whole : part.1 ++ (parts.map Prod.fst).flatten with
    | nil => exact absurd (List.append_eq_nil_iff.mp whole).1 present
    | cons byte bytes =>
      rw [itemsIn, ← whole, here, Option.bind_eq_bind, Option.bind_some]
      · dsimp only
        rw [rest]
        rfl
      · exact nofun

/-- A list's items are the ones it was made of. -/
theorem listItems_encodeList {parts : List (List UInt8 × Item)}
    (splits : ∀ part ∈ parts, Splits part.1 part.2)
    (short : (encodeList (parts.map Prod.fst).flatten).length ≤ usizeMax) :
    listItems (encodeList (parts.map Prod.fst).flatten) = some (parts.map Prod.snd) := by
  have whole := split_encodeList (parts.map Prod.fst).flatten [] short
  rw [List.append_nil] at whole
  rw [listItems, whole, Option.bind_eq_bind, Option.bind_some]
  dsimp only
  rw [if_pos rfl, items, if_pos rfl]
  exact itemsIn_flatten splits le_rfl

/-! ## Nodes -/

/-- What a hash of a parsed trie stands for: a node of the trie that the witness lacks. -/
def Lacks (keccak : List UInt8 → Word32) (db : NodeMap) (hash : Word32) (node : Node) : Prop :=
  db.get hash = none ∧ node ≠ empty ∧
    ∃ bytes, node.encode keccak = some bytes ∧ 32 ≤ bytes.length ∧ keccak bytes = hash

/-- No string of the witness has the hash of another that the trie encodes a node to. -/
def Authentic (keccak : List UInt8 → Word32) (nodes : List (List UInt8)) (whole : Node) : Prop :=
  ∀ node bytes, Within node whole → node.encode keccak = some bytes →
    ∀ known ∈ nodes, keccak known = keccak bytes → known = bytes

/-- A node that is there encodes to a list. -/
theorem encode_list {keccak : List UInt8 → Word32} {node : Node} {bytes : List UInt8}
    (filled : node ≠ empty) (encoded : node.encode keccak = some bytes) :
    ∃ payload, bytes = encodeList payload := by
  cases node with
  | empty => exact absurd rfl filled
  | leaf path value => cases encoded; exact ⟨_, rfl⟩
  | ext path child =>
    rw [encode] at encoded
    by_cases none : path = []
    · rw [if_pos none] at encoded
      cases encoded
    · rw [if_neg none] at encoded
      obtain ⟨reference, -, same⟩ := Option.map_eq_some_iff.mp encoded
      exact ⟨_, same.symm⟩
  | branch children value =>
    obtain ⟨references, -, same⟩ := Option.map_eq_some_iff.mp encoded
    exact ⟨_, same.symm⟩
  | blinded hash => cases encoded

/-- What is seen of a child, given its own sight: its hash, when that names it and the
witness lacks it. -/
def seen (keccak : List UInt8 → Word32) (db : NodeMap) (child sighted : Node) : Node :=
  match child.encode keccak with
  | some bytes =>
    if 32 ≤ bytes.length ∧ (db.get (keccak bytes)).isNone then blinded (keccak bytes) else sighted
  | none => sighted

/-- What is seen of a trie with a witness that has its first node. -/
def sight (keccak : List UInt8 → Word32) (db : NodeMap) : Node → Node
  | ext path child => ext path (seen keccak db child (sight keccak db child))
  | branch children value =>
    branch (fun i => seen keccak db (children i) (sight keccak db (children i))) value
  | node => node

theorem sight_eq_empty {keccak : List UInt8 → Word32} {db : NodeMap} {node : Node} :
    sight keccak db node = empty ↔ node = empty := by
  cases node <;> simp [sight]

/-- What is seen of a trie is a view of it. -/
theorem view_sight (keccak : List UInt8 → Word32) (db : NodeMap) (node : Node)
    (resolved : ∀ hash, ¬ Within (blinded hash) node) :
    View (Lacks keccak db) (sight keccak db node) node := by
  have slot : ∀ child, View (Lacks keccak db) (sight keccak db child) child →
      View (Lacks keccak db) (seen keccak db child (sight keccak db child)) child := by
    intro child below
    unfold seen
    cases encoded : child.encode keccak with
    | none => exact below
    | some bytes =>
      dsimp only
      by_cases lacking : 32 ≤ bytes.length ∧ (db.get (keccak bytes)).isNone
      · rw [if_pos lacking]
        refine .blinded ⟨Option.isNone_iff_eq_none.mp lacking.2, ?_, bytes, encoded, lacking.1, rfl⟩
        rintro rfl
        cases encoded
        exact absurd lacking.1 (by decide)
      · rwa [if_neg lacking]
  induction node with
  | empty => exact .empty
  | leaf path value => exact .leaf path value
  | ext path child ih =>
    exact .ext path (slot child (ih fun hash inside => resolved hash (.ext path inside)))
  | branch children value ih =>
    exact .branch value fun i =>
      slot (children i) (ih i fun hash inside => resolved hash (.branch i value inside))
  | blinded hash => exact absurd (.refl _) (resolved hash)

section Parse

variable {keccak : List UInt8 → Word32} {nodes : List (List UInt8)}

/-- A child slot's encoding is one item, which resolves to what is seen of the child. -/
def Resolves (keccak : List UInt8 → Word32) (db : NodeMap) (levels : ℕ) (child : Node)
    (reference : List UInt8) : Prop :=
  ∃ item, Splits reference item ∧
    childOf db (parseAt db levels) item = .ok (seen keccak db child (sight keccak db child))

/-- A child is resolved when its own bytes parse to what is seen of it. -/
theorem resolves {child : Node} {reference : List UInt8} {levels : ℕ}
    (short : ∀ known ∈ nodes, known.length ≤ usizeMax) (authentic : Authentic keccak nodes child)
    (known : ∀ hash, child ≠ blinded hash)
    (parsed : child ≠ empty → ∀ bytes, child.encode keccak = some bytes → bytes.length ≤ usizeMax →
      parseAt (NodeMap.new keccak nodes) levels bytes =
        .ok (sight keccak (NodeMap.new keccak nodes) child))
    (named : child.named keccak (child.encode keccak) = some reference)
    (small : reference.length ≤ usizeMax) :
    Resolves keccak (NodeMap.new keccak nodes) levels child reference := by
  by_cases filled : child = empty
  · subst filled
    have none : reference = encodeBytes [] := (Option.some.inj named).symm
    rw [none]
    exact ⟨_, splits_bytes (by decide), rfl⟩
  · obtain ⟨bytes, encoded⟩ : ∃ bytes, child.encode keccak = some bytes := by
      cases here : child.encode keccak with
      | some bytes => exact ⟨bytes, rfl⟩
      | none =>
        rw [here] at named
        cases child with
        | blinded hash => exact absurd rfl (known hash)
        | _ => cases named
    rw [encoded, Patricia.named_eq keccak known, Option.some.injEq, Patricia.naming] at named
    obtain ⟨payload, list⟩ := encode_list filled encoded
    by_cases inline : bytes.length < 32
    · rw [if_pos inline] at named
      subst named
      have ran := parsed filled bytes encoded small
      rw [list] at small
      refine ⟨_, list ▸ splits_list small, ?_⟩
      rw [childOf, if_pos rfl, seen, encoded]
      dsimp only
      rw [if_neg fun lacking => absurd lacking.1 (Nat.not_le.mpr inline)]
      exact list ▸ ran
    · rw [if_neg inline] at named
      subst named
      have exact32 : (keccak bytes).1.length = 32 := (keccak bytes).2
      have present : (keccak bytes).1 ≠ [] := by
        intro none
        rw [none] at exact32
        exact absurd exact32 (by decide)
      have slot : childOf (NodeMap.new keccak nodes) (parseAt (NodeMap.new keccak nodes) levels)
          ⟨false, (keccak bytes).1, encodeBytes (keccak bytes).1⟩ =
            ((NodeMap.new keccak nodes).get (keccak bytes)).elim (.ok (blinded (keccak bytes)))
              (parseAt (NodeMap.new keccak nodes) levels) := by
        rw [childOf, if_neg Bool.false_ne_true, if_neg present, dif_pos exact32]
        cases (NodeMap.new keccak nodes).get (keccak bytes) <;> rfl
      cases found : (NodeMap.new keccak nodes).get (keccak bytes) with
      | some known =>
        obtain ⟨member, same⟩ := NodeMap.get_new found
        have whole := authentic child bytes (.refl child) encoded known member same
        subst whole
        refine ⟨_, splits_bytes small, ?_⟩
        rw [slot, found, Option.elim_some, seen, encoded]
        dsimp only
        rw [found, if_neg fun lacking => absurd lacking.2 Bool.false_ne_true]
        exact parsed filled known encoded (short known member)
      | none =>
        refine ⟨_, splits_bytes small, ?_⟩
        rw [slot, found, Option.elim_none, seen, encoded]
        dsimp only
        rw [found, if_pos ⟨Nat.not_lt.mp inline, rfl⟩]

/-- A two-item list whose first item is a leaf's path is the leaf. -/
theorem parseAt_leaf {db : NodeMap} {levels : ℕ} {bytes value : List UInt8} {first second : Item}
    {path : Path} (listed : listItems bytes = some [first, second])
    (decoded : hpDecode first.payload = some (path, true)) (own : second.payload = value) :
    parseAt db (levels + 1) bytes = .ok (leaf path value) := by
  rw [parseAt, listed]
  dsimp only
  rw [decoded, own]

theorem parseAt_ext {db : NodeMap} {levels : ℕ} {bytes : List UInt8} {first second : Item}
    {path : Path} {child : Node} (listed : listItems bytes = some [first, second])
    (decoded : hpDecode first.payload = some (path, false)) (some : path ≠ [])
    (below : childOf db (parseAt db levels) second = .ok child) :
    parseAt db (levels + 1) bytes = .ok (ext path child) := by
  rw [parseAt, listed]
  dsimp only
  rw [decoded]
  dsimp only
  rw [if_neg some, below]
  rfl

theorem parseAt_branch {db : NodeMap} {levels : ℕ} {bytes : List UInt8} {items : List Item}
    {last : Item} (listed : listItems bytes = some (items ++ [last])) (count : items.length = 16)
    {children : List Node} (below : items.mapM (childOf db (parseAt db levels)) = .ok children) :
    parseAt db (levels + 1) bytes =
      .ok (branch (fun i => children.getD i.val empty) last.payload) := by
  have taken : (items ++ [last]).take 16 = items := List.take_left' count
  have final : (items ++ [last])[16]? = some last := by
    rw [List.getElem?_append_right count.le, count]
    rfl
  have whole : (items ++ [last]).length = 17 := by
    rw [List.length_append, count]
    rfl
  rw [parseAt, listed]
  generalize items ++ [last] = all at taken final whole
  cases all with
  | nil => exact absurd whole (by decide)
  | cons first rest =>
    cases rest with
    | nil => exact absurd whole (by simp)
    | cons second rest =>
      cases rest with
      | nil => exact absurd whole (by simp)
      | cons third rest =>
        dsimp only
        rw [final]
        dsimp only
        rw [if_pos whole, taken, below]
        rfl

theorem mapM_some {f : Nibble → Option (List UInt8)} {slots : List Nibble}
    {references : List (List UInt8)} (ran : slots.mapM f = some references) :
    (∀ i ∈ slots, f i = some ((f i).getD [])) ∧ references = slots.map fun i => (f i).getD [] := by
  induction slots generalizing references with
  | nil =>
    cases ran
    exact ⟨nofun, rfl⟩
  | cons i slots ih =>
    rw [List.mapM_cons, Option.bind_eq_bind, Option.bind_eq_some_iff] at ran
    obtain ⟨first, here, rest⟩ := ran
    rw [Option.bind_eq_bind, Option.bind_eq_some_iff] at rest
    obtain ⟨others, there, same⟩ := rest
    cases same
    obtain ⟨each, whole⟩ := ih there
    refine ⟨List.forall_mem_cons.mpr ⟨by rw [here]; rfl, each⟩, ?_⟩
    rw [List.map_cons, here, whole]
    rfl

theorem mapM_ok {α β : Type} {f : α → Except MptError β} {g : α → β} {xs : List α}
    (each : ∀ x, f x = .ok (g x)) : xs.mapM f = .ok (xs.map g) := by
  rw [show f = fun x => pure (g x) from funext each, List.mapM_pure]
  rfl

/-- The bytes of a canonical trie parse to what is seen of it. -/
theorem parse_sight {node : Node} (canonical : Canonical node) {contents : Contents}
    (reads : ∀ key, get node key = .ok (contents key)) (filled : node ≠ empty) {n levels : ℕ}
    (keys : ∀ key, contents key ≠ none → key.length = n) (deep : n < levels)
    (short : ∀ known ∈ nodes, known.length ≤ usizeMax) (authentic : Authentic keccak nodes node)
    {bytes : List UInt8} (encoded : node.encode keccak = some bytes)
    (small : bytes.length ≤ usizeMax) :
    parseAt (NodeMap.new keccak nodes) levels bytes =
      .ok (sight keccak (NodeMap.new keccak nodes) node) := by
  obtain ⟨levels, rfl⟩ : ∃ m, levels = m + 1 := ⟨levels - 1, by omega⟩
  induction canonical generalizing contents n levels bytes with
  | empty => exact absurd rfl filled
  | @leaf path value some =>
    cases encoded
    have payload := (length_le_encodeList _).trans small
    rw [List.length_append] at payload
    have listed := @listItems_encodeList
      [(encodeBytes (hpEncode path true), ⟨false, hpEncode path true, _⟩),
        (encodeBytes value, ⟨false, value, _⟩)]
      (List.forall_mem_cons.mpr ⟨splits_bytes (by omega),
        List.forall_mem_singleton.mpr (splits_bytes (by omega))⟩)
      (by simpa using small)
    simp only [List.map_cons, List.map_nil, List.flatten_cons, List.flatten_nil,
      List.append_nil] at listed
    exact parseAt_leaf listed (hpDecode_hpEncode path true) rfl
  | @ext path child some below forks ih =>
    have within : ∀ key, get child key = .ok (contents (path ++ key)) := by
      intro key
      rw [← reads, get_ext_append]
    have known : ∀ hash, child ≠ .blinded hash := by
      rintro hash rfl
      cases within []
    have long := List.length_pos_iff.mpr some
    rw [encode, if_neg some] at encoded
    obtain ⟨reference, named, same⟩ := Option.map_eq_some_iff.mp encoded
    subst same
    have payload := (length_le_encodeList _).trans small
    rw [List.length_append] at payload
    have resolved : Resolves keccak (NodeMap.new keccak nodes) levels child reference := by
      refine resolves short (fun m b inside => authentic m b (.ext path inside)) known ?_ named (by omega)
      intro present bytes encoded small
      obtain ⟨key, held⟩ := below.exists_get present
      rw [within] at held
      have measure := keys (path ++ key) fun none => held (congrArg Except.ok none)
      rw [List.length_append] at measure
      obtain ⟨m, rfl⟩ : ∃ m, levels = m + 1 := ⟨levels - 1, by omega⟩
      have shorter : ∀ key, contents (path ++ key) ≠ none → key.length = n - path.length := by
        intro key held
        have measure := keys (path ++ key) held
        rw [List.length_append] at measure
        omega
      exact ih within present shorter (fun m b inside => authentic m b (.ext path inside)) encoded
        small m (by omega)
    obtain ⟨item, splits, ran⟩ := resolved
    have listed := @listItems_encodeList
      [(encodeBytes (hpEncode path false), ⟨false, hpEncode path false, _⟩), (reference, item)]
      (List.forall_mem_cons.mpr ⟨splits_bytes (by omega), List.forall_mem_singleton.mpr splits⟩)
      (by simpa using small)
    simp only [List.map_cons, List.map_nil, List.flatten_cons, List.flatten_nil,
      List.append_nil] at listed
    exact parseAt_ext listed (hpDecode_hpEncode path false) some ran
  | @branch children value below two ih =>
    have within : ∀ i key, get (children i) key = .ok (contents (i :: key)) :=
      fun i key => reads (i :: key)
    have known : ∀ i hash, children i ≠ .blinded hash := by
      intro i hash blind
      have top := within i []
      rw [blind] at top
      cases top
    obtain ⟨references, named, same⟩ := Option.map_eq_some_iff.mp encoded
    subst same
    obtain ⟨name, each, rfl⟩ : ∃ name : Nibble → List UInt8,
        (∀ i, (children i).named keccak ((children i).encode keccak) = some (name i)) ∧
          references = (List.finRange 16).map name := by
      obtain ⟨each, whole⟩ := mapM_some named
      exact ⟨_, fun i => each i (List.mem_finRange i), whole⟩
    have payload := (length_le_encodeList _).trans small
    rw [List.length_append] at payload
    have slot : ∀ i, (name i).length ≤ usizeMax := by
      intro i
      have inside : name i ∈ (List.finRange 16).map name := List.mem_map_of_mem (List.mem_finRange i)
      have part := (List.sublist_flatten_of_mem inside).length_le
      omega
    have resolved : ∀ i, Resolves keccak (NodeMap.new keccak nodes) levels (children i) (name i) := by
      intro i
      refine resolves short (fun m b inside => authentic m b (.branch i value inside)) (known i) ?_
        (each i) (slot i)
      intro present bytes encoded small
      obtain ⟨key, held⟩ := (below i).exists_get present
      rw [within] at held
      have measure := keys (i :: key) fun none => held (congrArg Except.ok none)
      rw [List.length_cons] at measure
      obtain ⟨m, rfl⟩ : ∃ m, levels = m + 1 := ⟨levels - 1, by omega⟩
      have shorter : ∀ key, contents (i :: key) ≠ none → key.length = n - 1 := by
        intro key held
        have measure := keys (i :: key) held
        rw [List.length_cons] at measure
        omega
      exact ih i (within i) present shorter (fun m b inside => authentic m b (.branch i value inside))
        encoded small m (by omega)
    choose item splits ran using resolved
    have listed := @listItems_encodeList ((List.finRange 16).map (fun i => (name i, item i)) ++
        [(encodeBytes value, ⟨false, value, encodeBytes value⟩)])
      (by
        intro part member
        rcases List.mem_append.mp member with child | own
        · obtain ⟨i, -, rfl⟩ := List.mem_map.mp child
          exact splits i
        · rw [List.mem_singleton.mp own]
          exact splits_bytes (by omega))
      (by
        rw [List.map_append, List.map_map, List.flatten_append, List.map_singleton,
          List.flatten_singleton]
        exact small)
    rw [List.map_append, List.map_append, List.map_map, List.map_map, List.flatten_append,
      List.map_singleton, List.map_singleton, List.flatten_singleton] at listed
    have resolvedAll : ((List.finRange 16).map item).mapM
        (childOf (NodeMap.new keccak nodes) (parseAt (NodeMap.new keccak nodes) levels)) =
        .ok ((List.finRange 16).map fun i => seen keccak (NodeMap.new keccak nodes) (children i)
          (sight keccak (NodeMap.new keccak nodes) (children i))) := by
      rw [List.mapM_map]
      exact mapM_ok ran
    have counted : ((List.finRange 16).map item).length = 16 := by
      rw [List.length_map, List.length_finRange]
    refine (parseAt_branch listed counted resolvedAll).trans ?_
    rw [sight]
    congr 2
    funext i
    rw [List.getD_eq_getElem?_getD, List.getElem?_map, List.getElem?_eq_getElem (by simp)]
    simp
  | blinded hash => cases reads []

end Parse

end Apogee.Mpt
