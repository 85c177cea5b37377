import Apogee.Memory.Statement
import Mathlib.Algebra.Polynomial.Roots

/-! # Fingerprints and the boundary

The circuits compress a tuple to one field element. The verifier's boundary factors
are the fingerprints of the boundary's tuples, so its check over the shards' roots
compares the statement's two sides, and decides their balance but for few values of
each challenge.
-/

namespace Apogee.Memory

open Frame Polynomial

/-- `γ + space + α_addr·addr + α_ts·ts + α_val·value`. -/
def fingerprint (challenges : ExternalChallenges) (space addr ts value : Fr) : Fr :=
  coefficient challenges (.challenge ChallengeSlot.memGamma) + space +
    coefficient challenges (.challenge ChallengeSlot.memAlphaAddr) * addr +
    coefficient challenges (.challenge ChallengeSlot.memAlphaTs) * ts +
    coefficient challenges (.challenge ChallengeSlot.memAlphaVal) * value

def Tuple.fingerprint (challenges : ExternalChallenges) (tuple : Tuple) : Fr :=
  Memory.fingerprint challenges tuple.space tuple.addr tuple.ts tuple.value

/-- A query's read tuple over a frame that holds every query. -/
def readTuple (query : ℕ) : GateDef := tuple query query false none

/-- A boundary tuple, the circuits' own gate at the tuple's parts. -/
def boundaryTuple (memory : ExternalChallenges) (query : ℕ) (addr ts value : Fr) : Fr :=
  evalGate memory (readTuple query) [1, addr, ts, value]

/-- The boundary's write and read factors. The source panics on a memory slot that
is not set. -/
def boundaryFactors (memory : ExternalChallenges) (entryPc : ℕ) (finals : BoundaryFinals) :
    Fr × Fr :=
  (List.finRange 32).foldl
    (fun factors (r : Fin 32) => (factors.1 * boundaryTuple memory Frame.rs1 (r : ℕ) 0 0,
      factors.2 * boundaryTuple memory Frame.rs1 (r : ℕ) (finals.regTs r) (finals.value r)))
    (boundaryTuple memory Frame.pc 0 0 entryPc,
      boundaryTuple memory Frame.pc 0 finals.pcTs (Clock.haltPc : ℕ))

/-- The memory argument's check over every shard's roots. -/
def reconciles (readRoots writeRoots : List Fr) (factors : Fr × Fr) : Bool :=
  let read := readRoots.foldl (· * ·) factors.2
  let write := writeRoots.foldl (· * ·) factors.1
  read = write && read ≠ 0

section Boundary

variable (memory : ExternalChallenges)

theorem boundaryTuple_eq {query : ℕ} (memoryQuery : query ≠ deleg)
    (addr ts value : Fr) : boundaryTuple memory query addr ts value =
      fingerprint memory (frameSpace.getD query 0 : ℕ) addr ts value := by
  simp only [boundaryTuple, readTuple, tuple, if_neg memoryQuery, Bool.false_eq_true, ↓reduceIte,
    List.cons_append, List.nil_append, evalGate, affine, List.zip_cons_cons, List.zip_nil_right,
    List.foldl_cons, List.foldl_nil, coefficient_lit, mul_one, fingerprint]

/-- A fold of products is the product, from its start on. -/
private theorem foldl_factors {ι : Type*} (list : List ι) (left right : ι → Fr)
    (start : Fr × Fr) :
    list.foldl (fun factors i => (factors.1 * left i, factors.2 * right i)) start =
      (start.1 * (list.map left).prod, start.2 * (list.map right).prod) := by
  induction list generalizing start with
  | nil => simp
  | cons i list ih =>
    rw [List.foldl_cons, ih, List.map_cons, List.map_cons, List.prod_cons, List.prod_cons,
      mul_assoc, mul_assoc]

/-- The boundary factors are the fingerprints of the boundary's tuples. -/
theorem boundaryFactors_eq (entryPc : ℕ) (finals : BoundaryFinals) :
    boundaryFactors memory entryPc finals =
      (((boundaryInits entryPc).map (Tuple.fingerprint memory)).prod,
        ((boundaryFinals finals).map (Tuple.fingerprint memory)).prod) := by
  have pcTuple := boundaryTuple_eq memory (show Frame.pc ≠ deleg by decide)
  have regTuple := boundaryTuple_eq memory (show Frame.rs1 ≠ deleg by decide)
  rw [boundaryFactors, foldl_factors, boundaryInits, boundaryFinals, List.map_cons, List.map_cons,
    List.prod_cons, List.prod_cons, List.map_map, List.map_map]
  simp only [pcTuple, regTuple, Function.comp_def, Tuple.fingerprint, pcInit, pcFinal, regInit,
    regFinal, Nat.cast_zero]
  rfl

variable {statement : Statement} {readRoots writeRoots : List Fr}

/-- The check compares the statement's two sides, where the shards' roots are the
products of their own tuples' fingerprints. -/
theorem reconciles_iff
    (readsEq : readRoots.prod = ((statement.queries.map Query.read ++
      statement.windows.map WindowRow.teardown).map (Tuple.fingerprint memory)).prod)
    (writesEq : writeRoots.prod = ((statement.queries.map Query.write ++
      statement.windows.map WindowRow.init).map (Tuple.fingerprint memory)).prod) :
    reconciles readRoots writeRoots (boundaryFactors memory statement.entryPc statement.finals) =
        true ↔
      ((statement.queries.map Query.read ++ statement.finalTuples).map
          (Tuple.fingerprint memory)).prod =
        ((statement.queries.map Query.write ++ statement.inits).map
          (Tuple.fingerprint memory)).prod ∧
      ((statement.queries.map Query.read ++ statement.finalTuples).map
        (Tuple.fingerprint memory)).prod ≠ 0 := by
  have fold (roots : List Fr) (start : Fr) : roots.foldl (· * ·) start = start * roots.prod := by
    rw [List.prod_eq_foldl, ← List.foldl_hom (start * ·) fun x y => mul_assoc start x y, mul_one]
  have swap (x y z : Fr) : x * (y * z) = y * (x * z) := mul_left_comm x y z
  simp only [reconciles, boundaryFactors_eq, fold, readsEq, writesEq, Statement.finalTuples,
    Statement.inits, List.map_append, List.prod_append, Bool.and_eq_true, decide_eq_true_eq, swap]

end Boundary

section Escape

/-- One challenge keeps two parts of a tuple apart, but for one value for each pair. -/
private theorem exists_separating {α : Type*} (list : List α) (fixed moving : α → Fr) :
    ∃ bad : Finset Fr, bad.card ≤ list.length ^ 2 ∧ ∀ x ∉ bad, ∀ s ∈ list, ∀ t ∈ list,
      fixed s + x * moving s = fixed t + x * moving t → fixed s = fixed t ∧ moving s = moving t := by
  refine ⟨((list ×ˢ list).map fun pair =>
    (fixed pair.1 - fixed pair.2) / (moving pair.2 - moving pair.1)).toFinset, ?_, ?_⟩
  · refine (List.toFinset_card_le _).trans_eq ?_
    rw [List.length_map, List.length_product, sq]
  · intro x good s left t right same
    by_cases equal : moving s = moving t
    · rw [equal] at same
      exact ⟨add_right_cancel same, equal⟩
    · refine absurd (List.mem_toFinset.mpr (List.mem_map.mpr
        ⟨(s, t), List.pair_mem_product.mpr ⟨left, right⟩, ?_⟩)) good
      rw [div_eq_iff (sub_ne_zero.mpr (Ne.symm equal))]
      linear_combination same

/-- Two lists of as many compressed tuples have one nonzero product exactly if they are
one multiset, but for few challenges. -/
private theorem exists_product (left right : Multiset Fr) (length : right.card = left.card) :
    ∃ bad : Finset Fr, bad.card ≤ 2 * left.card ∧ ∀ x ∉ bad,
      ((left.map (x + ·)).prod = (right.map (x + ·)).prod ∧ (left.map (x + ·)).prod ≠ 0 ↔
        left = right) := by
  let poly (side : Multiset Fr) : Fr[X] := ((side.map (- ·)).map fun c => X - C c).prod
  have eval (side : Multiset Fr) (x : Fr) : (poly side).eval x = (side.map (x + ·)).prod := by
    simp [poly, eval_multiset_prod, Multiset.map_map]
  have degree (side : Multiset Fr) : (poly side).natDegree = side.card := by
    rw [natDegree_multiset_prod_X_sub_C_eq_card, Multiset.card_map]
  have few (p : Fr[X]) (bound : p.natDegree ≤ left.card) : p.roots.toFinset.card ≤ left.card :=
    (Multiset.toFinset_card_le _).trans ((card_roots' p).trans bound)
  refine ⟨(poly left - poly right).roots.toFinset ∪ (poly left).roots.toFinset, ?_, ?_⟩
  · refine (Finset.card_union_le _ _).trans ?_
    have difference := few (poly left - poly right)
      ((natDegree_sub_le _ _).trans (by rw [degree, degree, length, max_self]))
    have own := few (poly left) (degree left).le
    omega
  · intro x good
    rw [← eval, ← eval]
    simp only [Finset.mem_union, Multiset.mem_toFinset, not_or] at good
    have nonzero : poly left ≠ 0 := (monic_multiset_prod_of_monic _ _ fun c _ =>
      monic_X_sub_C c).ne_zero
    constructor
    · rintro ⟨same, -⟩
      have equal : poly left = poly right := by
        by_contra differ
        refine good.1 ((mem_roots (sub_ne_zero.mpr differ)).mpr ?_)
        rw [IsRoot, eval_sub, same, sub_self]
      have roots := congrArg Polynomial.roots equal
      rw [roots_multiset_prod_X_sub_C, roots_multiset_prod_X_sub_C] at roots
      exact Multiset.map_injective neg_injective roots
    · intro same
      rw [same] at good nonzero ⊢
      exact ⟨rfl, fun zero => good.2 ((mem_roots nonzero).mpr zero)⟩

variable (statement : Statement)

/-- Every tuple of a statement, of the read side and then of the write side. -/
def Statement.tuples : List Tuple :=
  (statement.queries.map Query.read ++ statement.finalTuples) ++
    (statement.queries.map Query.write ++ statement.inits)

/-- The challenges that the memory argument's slots hold. -/
structure Drawn (memory : ExternalChallenges) (gamma addr ts val : Fr) : Prop where
  gamma : memory.get ChallengeSlot.memGamma = some gamma
  addr : memory.get ChallengeSlot.memAlphaAddr = some addr
  ts : memory.get ChallengeSlot.memAlphaTs = some ts
  val : memory.get ChallengeSlot.memAlphaVal = some val

/-- Over shards whose roots are the products of their own tuples' fingerprints, the check
passes exactly if the statement is balanced. -/
def Statement.Decided (memory : ExternalChallenges) : Prop :=
  ∀ readRoots writeRoots : List Fr,
    readRoots.prod = ((statement.queries.map Query.read ++
      statement.windows.map WindowRow.teardown).map (Tuple.fingerprint memory)).prod →
    writeRoots.prod = ((statement.queries.map Query.write ++
      statement.windows.map WindowRow.init).map (Tuple.fingerprint memory)).prod →
    (reconciles readRoots writeRoots
        (boundaryFactors memory statement.entryPc statement.finals) = true ↔ statement.Balanced)

/-- Each challenge in turn has few values outside which the check decides the balance. -/
def Statement.DecidedForMost : Prop :=
  ∃ badAddr : Finset Fr, badAddr.card ≤ statement.tuples.length ^ 2 ∧ ∀ addr ∉ badAddr,
    ∃ badTs : Finset Fr, badTs.card ≤ statement.tuples.length ^ 2 ∧ ∀ ts ∉ badTs,
      ∃ badVal : Finset Fr, badVal.card ≤ statement.tuples.length ^ 2 ∧ ∀ val ∉ badVal,
        ∃ badGamma : Finset Fr, badGamma.card ≤ statement.tuples.length ∧ ∀ gamma ∉ badGamma,
          ∀ memory, Drawn memory gamma addr ts val → statement.Decided memory

/-- **The reconciliation decides the balance**, where the tuples' spaces and timestamps are
integers that the field keeps apart. -/
theorem reconciles_decides (small : ∀ tuple ∈ statement.tuples,
    tuple.space < 2 ^ 250 ∧ tuple.ts < 2 ^ 250) : statement.DecidedForMost := by
  obtain ⟨badAddr, addrFew, addrGood⟩ := exists_separating statement.tuples
    (fun tuple => (tuple.space : Fr)) fun tuple => tuple.addr
  refine ⟨badAddr, addrFew, fun addr addrFresh => ?_⟩
  obtain ⟨badTs, tsFew, tsGood⟩ := exists_separating statement.tuples
    (fun tuple => (tuple.space : Fr) + addr * tuple.addr) fun tuple => (tuple.ts : Fr)
  refine ⟨badTs, tsFew, fun ts tsFresh => ?_⟩
  obtain ⟨badVal, valFew, valGood⟩ := exists_separating statement.tuples
    (fun tuple => (tuple.space : Fr) + addr * tuple.addr + ts * tuple.ts) fun tuple => tuple.value
  refine ⟨badVal, valFew, fun val valFresh => ?_⟩
  let compress (tuple : Tuple) : Fr :=
    (tuple.space : Fr) + addr * tuple.addr + ts * tuple.ts + val * tuple.value
  have apart : Set.InjOn compress {tuple | tuple ∈ statement.tuples} := by
    intro s left t right same
    obtain ⟨byTs, value⟩ := valGood val valFresh s left t right same
    obtain ⟨byAddr, tsEq⟩ := tsGood ts tsFresh s left t right byTs
    obtain ⟨space, addrEq⟩ := addrGood addr addrFresh s left t right byAddr
    have spaces := fr_natCast_inj (small s left).1 (small t right).1 space
    have stamps := fr_natCast_inj (small s left).2 (small t right).2 tsEq
    cases s
    cases t
    exact Tuple.mk.injEq .. ▸ ⟨spaces, addrEq, stamps, value⟩
  obtain ⟨badGamma, gammaFew, gammaGood⟩ := exists_product
    ↑((statement.queries.map Query.read ++ statement.finalTuples).map compress)
    ↑((statement.queries.map Query.write ++ statement.inits).map compress)
    (by simp [Statement.finalTuples, Statement.inits, boundaryFinals, boundaryInits])
  refine ⟨badGamma, gammaFew.trans_eq ?_, fun gamma gammaFresh memory drawn readRoots writeRoots
    readsEq writesEq => ?_⟩
  · simp [Statement.tuples, Statement.finalTuples, Statement.inits, boundaryFinals,
      boundaryInits]
    omega
  · have whole : Tuple.fingerprint memory = fun tuple => gamma + compress tuple := by
      funext tuple
      simp only [Tuple.fingerprint, fingerprint, coefficient, drawn.gamma, drawn.addr, drawn.ts,
        drawn.val, Option.getD_some, compress]
      ring
    have decided := gammaGood gamma gammaFresh
    simp only [Multiset.map_coe, Multiset.prod_coe, List.map_map, Function.comp_def] at decided
    rw [reconciles_iff memory readsEq writesEq, whole, decided, Statement.Balanced]
    constructor
    · intro same
      have : Nonempty Tuple := ⟨pcInit 0⟩
      -- on the statement's tuples, compression is inverted
      have inverted {side : List Tuple} (inside : ∀ t ∈ side, t ∈ statement.tuples) :
          (side.map compress).map (Function.invFunOn compress {t | t ∈ statement.tuples}) = side := by
        rw [List.map_map]
        exact (List.map_congr_left fun t member => apart.leftInvOn_invFunOn (inside t member)).trans
          (List.map_id side)
      have back := congrArg (Multiset.map
        (Function.invFunOn compress {t | t ∈ statement.tuples})) same
      rwa [Multiset.map_coe, Multiset.map_coe, inverted fun t => List.mem_append_left _,
        inverted fun t => List.mem_append_right _] at back
    · intro balanced
      simpa only [Multiset.map_coe] using congrArg (Multiset.map compress) balanced

theorem reconciles_decides_exitRow : exitRow.DecidedForMost :=
  reconciles_decides exitRow (by decide +kernel)

end Escape

end Apogee.Memory
