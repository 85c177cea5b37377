import Apogee.Mpt.Parse

/-! # The sparse trie refines the trie

Under a canonical trie's root, whatever the witness, reads and updates of the sparse
trie are the trie's: what it answers is what the trie holds, its root is the trie's,
and it refuses only for a node of the trie that the witness lacks.
-/

namespace Apogee.Mpt

open Node Rlp Patricia

variable {keccak : List UInt8 → Word32} {db : NodeMap}

/-! ## A view has the trie's root -/

/-- A view names a trie as the trie names itself, and encodes as it does. -/
theorem View.encode_eq {view whole : Node} (views : View (Lacks keccak db) view whole) :
    view.named keccak (view.encode keccak) = whole.named keccak (whole.encode keccak) ∧
      ((∀ hash, view ≠ .blinded hash) → view.encode keccak = whole.encode keccak) := by
  induction views with
  | empty => exact ⟨rfl, fun _ => rfl⟩
  | leaf path value => exact ⟨rfl, fun _ => rfl⟩
  | @ext child whole path below ih =>
    have same : (Node.ext path child).encode keccak = (Node.ext path whole).encode keccak := by
      rw [encode, encode, ih.1]
    exact ⟨by rw [same]; rfl, fun _ => same⟩
  | @branch children wholes value below ih =>
    have same : (Node.branch children value).encode keccak = (Node.branch wholes value).encode keccak := by
      rw [encode, encode]
      congr 2
      funext i
      exact (ih i).1
    exact ⟨by rw [same]; rfl, fun _ => same⟩
  | @blinded hash node lacks =>
    obtain ⟨-, filled, bytes, encoded, long, rfl⟩ := lacks
    refine ⟨?_, fun seen => absurd rfl (seen _)⟩
    have seen : ∀ hash, node ≠ .blinded hash := by
      rintro hash rfl
      cases encoded
    rw [encoded, named_eq keccak seen, naming, if_neg (Nat.not_lt.mpr long)]
    rfl

theorem View.root_eq {view whole : Node} (views : View (Lacks keccak db) view whole) :
    view.root keccak = whole.root keccak := by
  have same := views.encode_eq.2
  cases views with
  | @blinded hash node lacks =>
    obtain ⟨-, filled, bytes, encoded, long, rfl⟩ := lacks
    cases whole with
    | blinded => exact absurd encoded nofun
    | _ => exact (congrArg (Option.map keccak) encoded).symm
  | _ => exact congrArg (Option.map keccak) (same nofun)

theorem lacks_filled (hash : Word32) (node : Node) (lacks : Lacks keccak db hash node) :
    node ≠ empty := lacks.2.1

/-- A trie of a map has no hash in it. -/
theorem Holds.resolved {trie : Node} {contents : Contents} (holds : Holds trie contents)
    (hash : Word32) : ¬ Within (blinded hash) trie := by
  have refused : ∀ {node : Node}, Within (blinded hash) node →
      ∃ key, get node key = .error (.missingNode hash) := by
    intro node within
    induction within with
    | refl => exact ⟨[], rfl⟩
    | ext path inside ih =>
      obtain ⟨key, here⟩ := ih
      exact ⟨path ++ key, by rw [get_ext_append, here]⟩
    | branch i value inside ih =>
      obtain ⟨key, here⟩ := ih
      exact ⟨i :: key, here⟩
  intro within
  obtain ⟨key, here⟩ := refused within
  rw [holds.reads] at here
  exact absurd here nofun

/-! ## Building -/

/-- The strings that are hashed: the witness's, the empty trie's, and the trie's nodes. -/
def hashed (keccak : List UInt8 → Word32) (nodes : List (List UInt8)) (trie : Node) :
    Set (List UInt8) :=
  {bytes | bytes = [0x80] ∨ bytes ∈ nodes ∨ ∃ node, Within node trie ∧ node.encode keccak = some bytes}

/-- A node of a trie that the witness lacks, by its hash. -/
def Missing (keccak : List UInt8 → Word32) (nodes : List (List UInt8)) (trie : Node)
    (hash : Word32) : Prop :=
  ∃ node bytes, Within node trie ∧ node.encode keccak = some bytes ∧ keccak bytes = hash ∧
    ∀ known ∈ nodes, keccak known ≠ hash

theorem Lacks.missing {nodes : List (List UInt8)} {hash : Word32} {hidden trie : Node}
    (lacks : Lacks keccak (NodeMap.new keccak nodes) hash hidden) (within : Within hidden trie) :
    Missing keccak nodes trie hash := by
  obtain ⟨absent, -, bytes, encoded, -, same⟩ := lacks
  exact ⟨hidden, bytes, within, encoded, same, NodeMap.get_new_eq_none_iff.mp absent⟩

theorem encodeList_ne_empty (payload : List UInt8) : encodeList payload ≠ [0x80] := by
  intro same
  have read := split_encodeList payload [] (by rw [same]; decide)
  have string : split ([0x80] ++ []) = some (⟨false, [], [0x80]⟩, []) := by decide
  rw [same, string, Option.some.injEq, Prod.mk.injEq, Item.mk.injEq] at read
  exact absurd read.1.1 Bool.false_ne_true

section Build

variable {trie : Node} {contents : Contents} (holds : Holds trie contents)
  (keys : ∀ key, contents key ≠ none → key.length = 64) {nodes : List (List UInt8)}
  (short : ∀ node ∈ nodes, node.length ≤ usizeMax) (emptyRoot : keccak [0x80] = emptyTrieRoot)
  (distinct : Set.InjOn keccak (hashed keccak nodes trie)) {root : Word32}
  (named : trie.root keccak = some root)
include holds keys short emptyRoot distinct named

/-- Under a canonical trie's root what is seen of it is built, unless the root's own node is
missing. -/
theorem build_sight :
    build (NodeMap.new keccak nodes) root = .ok (sight keccak (NodeMap.new keccak nodes) trie) ∨
      build (NodeMap.new keccak nodes) root = .error (.missingNode root) ∧ trie ≠ empty ∧
        ∃ bytes, trie.encode keccak = some bytes ∧ keccak bytes = root ∧
          ∀ known ∈ nodes, keccak known ≠ root := by
  by_cases filled : trie = empty
  · subst filled
    have same : root = emptyTrieRoot := by
      rw [← emptyRoot]
      exact (Option.some.inj named).symm
    exact Or.inl (if_pos same)
  · obtain ⟨bytes, encoded, rfl⟩ : ∃ bytes, trie.encode keccak = some bytes ∧ keccak bytes = root := by
      cases trie with
      | blinded hash => exact absurd (holds.reads []) nofun
      | _ => exact Option.map_eq_some_iff.mp named
    have inside : bytes ∈ hashed keccak nodes trie := Or.inr (Or.inr ⟨trie, .refl trie, encoded⟩)
    have apart : keccak bytes ≠ emptyTrieRoot := by
      intro same
      rw [← emptyRoot] at same
      obtain ⟨payload, list⟩ := encode_list filled encoded
      exact encodeList_ne_empty payload (list ▸ distinct inside (Or.inl rfl) same)
    rw [build, if_neg apart]
    cases found : (NodeMap.new keccak nodes).get (keccak bytes) with
    | none =>
      exact Or.inr ⟨rfl, filled, bytes, encoded, rfl, NodeMap.get_new_eq_none_iff.mp found⟩
    | some known =>
      obtain ⟨member, same⟩ := NodeMap.get_new found
      have whole := distinct (Or.inr (Or.inl member)) inside same
      subst whole
      refine Or.inl (parse_sight holds.canonical holds.reads filled keys (by decide) short ?_ encoded
        (short known member))
      intro node bytes within encoded known listed same
      exact distinct (Or.inr (Or.inl listed)) (Or.inr (Or.inr ⟨node, within, encoded⟩)) same

end Build

/-! ## Reads and updates -/

/-- A call of the trie. -/
inductive Op where
  | get (path : Path)
  | write (update : Update)

/-- Calls one after the other, and what the reads among them answer. -/
def serve : Node → List Op → Except MptError (List (Option (List UInt8)) × Node)
  | node, [] => .ok ([], node)
  | node, .get path :: ops => do
    let found ← get node path
    let (answers, after) ← serve node ops
    .ok (found :: answers, after)
  | node, .write update :: ops => do
    let middle ← update.apply node
    serve middle ops

theorem serve_get {node : Node} {path : Path} {found : Option (List UInt8)} (ops : List Op)
    (read : get node path = .ok found) :
    serve node (.get path :: ops) =
      (serve node ops).map fun served => (found :: served.1, served.2) := by
  rw [serve, read]
  cases serve node ops <;> rfl

theorem serve_write {node middle : Node} {update : Update} (ops : List Op)
    (ran : update.apply node = .ok middle) :
    serve node (.write update :: ops) = serve middle ops := by
  rw [serve, ran]
  rfl

/-- The updates among some calls. -/
def updates (ops : List Op) : List Update :=
  ops.filterMap fun op =>
    match op with
    | .get _ => none
    | .write update => some update

/-- What a map's reads answer. -/
def answers : Contents → List Op → List (Option (List UInt8))
  | _, [] => []
  | contents, .get path :: ops => contents path :: answers contents ops
  | contents, .write update :: ops => answers (update.writes contents) ops

variable {stands : Word32 → Node → Prop}

/-- An update of a view is the trie's. -/
theorem View.apply (filled : ∀ hash node, stands hash node → node ≠ .empty) {node whole : Node}
    (view : View stands node whole) (update : Update) :
    (∃ after changed, update.apply node = .ok after ∧ update.apply whole = .ok changed ∧
      View stands after changed) ∨
      ∃ error, update.apply node = .error error ∧ Refuses stands whole error (update.apply whole) := by
  obtain ⟨path, value⟩ := update
  cases value with
  | some value => exact view.insert path value
  | none => exact view.remove filled path

/-- Served calls answer from the map, and end in a view of the trie updated; or one of
them is refused, for a hash of the trie as updated so far. -/
theorem serve_view (filled : ∀ hash node, stands hash node → node ≠ .empty) {view trie : Node}
    {contents : Contents} (views : View stands view trie) (holds : Holds trie contents) (ops : List Op)
    (fits : ∀ update ∈ updates ops, update.value ≠ some []) :
    (∃ after final, serve view ops = .ok (answers contents ops, after) ∧
      run trie (updates ops) = .ok final ∧ View stands after final) ∨
      ∃ error done rest now hash hidden, serve view ops = .error error ∧ ops = done ++ rest ∧
        run trie (updates done) = .ok now ∧
        (error = .missingNode hash ∨ error = .blindedCollapse hash) ∧ stands hash hidden ∧
        Within hidden now := by
  induction ops generalizing view trie contents with
  | nil => exact Or.inl ⟨view, trie, rfl, rfl, views⟩
  | cons op ops ih =>
    cases op with
    | get path =>
      rcases views.get path with same | ⟨hash, hidden, rest, refused, names, within, -⟩
      · rw [holds.reads] at same
        rcases ih views holds fits with
          ⟨after, final, ran, updated, done⟩ |
          ⟨error, done, rest, now, hash, hidden, ran, whole, updated, kind, names, within⟩
        · refine Or.inl ⟨after, final, ?_, updated, done⟩
          rw [serve_get ops same, ran]
          rfl
        · refine Or.inr ⟨error, .get path :: done, rest, now, hash, hidden, ?_, by rw [whole]; rfl,
            updated, kind, names, within⟩
          rw [serve_get ops same, ran]
          rfl
      · refine Or.inr ⟨_, [], _, trie, hash, hidden, ?_, rfl, rfl, Or.inl rfl, names, within⟩
        rw [serve, refused]
        rfl
    | write update =>
      obtain ⟨here, later⟩ := List.forall_mem_cons.mp fits
      rcases views.apply filled update with
        ⟨middle, changed, first, other, seen⟩ | ⟨error, first, hash, hidden, kind, names, within, -⟩
      · obtain ⟨updated, ran, held⟩ := holds.apply here
        rw [other] at ran
        cases ran
        rcases ih seen held later with
          ⟨after, final, ran, whole, done⟩ |
          ⟨error, done, rest, now, hash, hidden, ran, whole, updated, kind, names, within⟩
        · refine Or.inl ⟨after, final, ?_, ?_, done⟩
          · rw [serve_write ops first]
            exact ran
          · rw [show updates (.write update :: ops) = update :: updates ops from rfl, run,
              List.foldlM_cons, other]
            exact whole
        · refine Or.inr ⟨error, .write update :: done, rest, now, hash, hidden, ?_, by rw [whole]; rfl,
            ?_, kind, names, within⟩
          · rw [serve_write ops first]
            exact ran
          · rw [show updates (.write update :: done) = update :: updates done from rfl, run,
              List.foldlM_cons, other]
            exact updated
      · refine Or.inr ⟨error, [], _, trie, hash, hidden, ?_, rfl, rfl, kind, names, within⟩
        rw [serve, first]
        rfl

/-- A view under a witness that holds every node named by its hash is the trie itself. -/
theorem View.eq_of_complete {nodes : List (List UInt8)} {view trie : Node}
    (views : View (Lacks keccak (NodeMap.new keccak nodes)) view trie)
    (complete : ∀ node bytes, Within node trie → node.encode keccak = some bytes →
      32 ≤ bytes.length → bytes ∈ nodes) : view = trie := by
  induction views with
  | empty => rfl
  | leaf => rfl
  | ext path below ih => rw [ih fun node bytes within => complete node bytes (.ext path within)]
  | branch value below ih =>
    congr 1
    funext i
    exact ih i fun node bytes within => complete node bytes (.branch i value within)
  | @blinded hash node lacks =>
    obtain ⟨absent, -, bytes, encoded, long, rfl⟩ := lacks
    have member := complete node bytes (.refl node) encoded long
    exact absurd rfl (NodeMap.get_new_eq_none_iff.mp absent bytes member)

/-- A trie answers every call from its map. -/
theorem Holds.serve {trie : Node} {contents : Contents} (holds : Holds trie contents) (ops : List Op)
    (fits : ∀ update ∈ updates ops, update.value ≠ some []) :
    ∃ after, serve trie ops = .ok (answers contents ops, after) := by
  induction ops generalizing trie contents with
  | nil => exact ⟨trie, rfl⟩
  | cons op ops ih =>
    cases op with
    | get path =>
      obtain ⟨after, ran⟩ := ih holds fits
      refine ⟨after, ?_⟩
      rw [serve_get ops (holds.reads path), ran]
      rfl
    | write update =>
      obtain ⟨here, later⟩ := List.forall_mem_cons.mp fits
      obtain ⟨middle, first, held⟩ := holds.apply here
      obtain ⟨after, ran⟩ := ih held later
      exact ⟨after, (serve_write ops first).trans ran⟩

/-- The sparse trie of a witness under a canonical trie's root is a view of the trie in
every run. The witness's strings have lengths a `usize` holds, as slices do, and no two of
the strings hashed share a hash. -/
theorem sparse_refines (keccak : List UInt8 → Word32) (emptyRoot : keccak [0x80] = emptyTrieRoot)
    {trie : Node} {contents : Contents} (holds : Holds trie contents)
    (keys : ∀ key, contents key ≠ none → key.length = 64) {nodes : List (List UInt8)}
    (short : ∀ node ∈ nodes, node.length ≤ usizeMax)
    (distinct : Set.InjOn keccak (hashed keccak nodes trie)) {root : Word32}
    (named : trie.root keccak = some root) (ops : List Op)
    (fits : ∀ update ∈ updates ops, update.value ≠ some []) :
    let served := build (NodeMap.new keccak nodes) root >>= fun start => serve start ops
    (∀ found after, served = .ok (found, after) → found = answers contents ops ∧
      ∃ final, run trie (updates ops) = .ok final ∧ Holds final (written contents (updates ops)) ∧
        after.root keccak = final.root keccak) ∧
      (∀ error, served = .error error → ∃ done rest now hash, ops = done ++ rest ∧
        run trie (updates done) = .ok now ∧ Missing keccak nodes now hash ∧
        (error = .missingNode hash ∨ error = .blindedCollapse hash)) ∧
      ((∀ node bytes, Within node trie → node ≠ empty → node.encode keccak = some bytes →
        bytes ∈ nodes) → ∃ found after, served = .ok (found, after)) := by
  intro served
  rcases build_sight holds keys short emptyRoot distinct named with
    built | ⟨refused, filled, bytes, encoded, same, absent⟩
  · have views := view_sight keccak (NodeMap.new keccak nodes) trie holds.resolved
    generalize sight keccak (NodeMap.new keccak nodes) trie = view at built views
    have start : served = serve view ops := by
      show (build (NodeMap.new keccak nodes) root >>= fun start => serve start ops) = _
      rw [built]
      rfl
    refine ⟨?_, ?_, ?_⟩
    · intro found after ran
      obtain ⟨final, updated, held⟩ := holds.run fits
      rcases serve_view lacks_filled views holds ops fits with
        ⟨after', final', ran', updated', done⟩ | ⟨error, _, _, _, _, _, ran', -⟩
      · rw [updated] at updated'
        cases updated'
        rw [start, ran'] at ran
        cases ran
        exact ⟨rfl, final, updated, held, done.root_eq⟩
      · rw [start, ran'] at ran
        cases ran
    · intro error ran
      rcases serve_view lacks_filled views holds ops fits with
        ⟨_, _, ran', -⟩ | ⟨error', done, rest, now, hash, hidden, ran', whole, updated, kind, names, within⟩
      · rw [start, ran'] at ran
        cases ran
      · rw [start, ran'] at ran
        cases ran
        exact ⟨done, rest, now, hash, whole, updated, names.missing within, kind⟩
    · intro complete
      have same : view = trie := views.eq_of_complete fun node bytes within encoded long => by
        refine complete node bytes within ?_ encoded
        rintro rfl
        cases encoded
        exact absurd long (by decide)
      obtain ⟨after, ran⟩ := holds.serve ops fits
      exact ⟨_, after, by rw [start, same, ran]⟩
  · have start : served = .error (.missingNode root) := by
      show (build (NodeMap.new keccak nodes) root >>= fun start => serve start ops) = _
      rw [refused]
      rfl
    refine ⟨?_, ?_, ?_⟩
    · intro found after ran
      rw [start] at ran
      cases ran
    · intro error ran
      rw [start] at ran
      cases ran
      exact ⟨[], ops, trie, root, rfl, rfl, ⟨trie, bytes, .refl trie, encoded, same, absent⟩,
        Or.inl rfl⟩
    · intro complete
      exact absurd same (absent bytes (complete trie bytes (.refl trie) filled encoded))

/-- The trie of one key, all of whose nibbles are zero. -/
def zeroKeyTrie : Node := leaf (nibblesOf (List.replicate 32 0)) [5]

/-- What it encodes to. -/
def zeroKeyBytes : List UInt8 := 0xe3 :: 0xa1 :: 0x20 :: List.replicate 32 0 ++ [5]

def zeroKeyHash : Word32 :=
  ⟨[0xcb, 0xdc, 0x65, 0xb6, 0x74, 0xf4, 0xda, 0x1d, 0x99, 0x07, 0x22, 0x3d, 0x7b,
    0x7b, 0xa5, 0xaa, 0x15, 0x77, 0x1f, 0xe1, 0xe7, 0x78, 0xfb, 0x33, 0xfd, 0xfd,
    0x46, 0x00, 0xb8, 0x69, 0x64, 0x14],
    rfl⟩

theorem zeroKeyTrie_encode (keccak : List UInt8 → Word32) :
    zeroKeyTrie.encode keccak = some zeroKeyBytes := rfl

theorem zeroKeyTrie_holds :
    Holds zeroKeyTrie fun key => if key = List.replicate 64 0 then some [5] else none := by
  refine ⟨.leaf (List.cons_ne_nil _ _), fun key => ?_⟩
  rw [zeroKeyTrie, get, eq_comm]
  congr 1
  exact if_congr eq_comm rfl rfl

theorem zeroKey_hashed {keccak : List UInt8 → Word32} {bytes : List UInt8}
    (inside : bytes ∈ hashed keccak [zeroKeyBytes] zeroKeyTrie) :
    bytes = [0x80] ∨ bytes = zeroKeyBytes := by
  rcases inside with empty | known | ⟨node, within, encoded⟩
  · exact Or.inl empty
  · exact Or.inr (List.mem_singleton.mp known)
  · cases within
    rw [zeroKeyTrie_encode] at encoded
    exact Or.inr (Option.some.inj encoded).symm

theorem zeroKey_distinct : Set.InjOn (tableHash [(zeroKeyBytes, zeroKeyHash)])
      (hashed (tableHash [(zeroKeyBytes, zeroKeyHash)]) [zeroKeyBytes] zeroKeyTrie) := by
  intro a inside b inside' same
  rcases zeroKey_hashed inside with rfl | rfl
  · rcases zeroKey_hashed inside' with rfl | rfl
    · rfl
    · exact absurd same (by decide)
  · rcases zeroKey_hashed inside' with rfl | rfl
    · exact absurd same (by decide)
    · rfl

theorem zeroKey_lengths (key : Path)
    (held : (if key = List.replicate 64 0 then some [(5 : UInt8)] else none) ≠ none) :
    key.length = 64 := by
  by_cases here : key = List.replicate 64 0
  · rw [here, List.length_replicate]
  · rw [if_neg here] at held
    exact absurd rfl held

/-- A trie of one key under its real root: read, written beside, and read again. -/
theorem sparse_refines_zeroKey :
    ∃ after, (build (NodeMap.new (tableHash [(zeroKeyBytes, zeroKeyHash)]) [zeroKeyBytes])
      zeroKeyHash >>= fun start => serve start [.get (List.replicate 64 0),
        .write ⟨List.replicate 64 1, some [7]⟩, .get (List.replicate 64 1), .get (List.replicate 64 2)]) =
      .ok ([some [5], some [7], none], after) := by
  obtain ⟨answered, -, complete⟩ := sparse_refines (tableHash [(zeroKeyBytes, zeroKeyHash)])
    (by decide) zeroKeyTrie_holds zeroKey_lengths (by decide) zeroKey_distinct
    (show zeroKeyTrie.root _ = some zeroKeyHash by decide)
    [.get (List.replicate 64 0), .write ⟨List.replicate 64 1, some [7]⟩,
      .get (List.replicate 64 1), .get (List.replicate 64 2)] (by simp [updates])
  obtain ⟨found, after, ran⟩ := complete fun node bytes within filled encoded => by
    cases within
    rw [zeroKeyTrie_encode] at encoded
    rw [← Option.some.inj encoded]
    exact List.mem_singleton_self _
  obtain ⟨same, -⟩ := answered found after ran
  refine ⟨after, ?_⟩
  rw [ran, same]
  rfl

end Apogee.Mpt
