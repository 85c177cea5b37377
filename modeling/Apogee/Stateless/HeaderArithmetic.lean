import Apogee.Stateless.Exponential

/-! # The header's arithmetic

The rules over unbounded integers, and what the guest's fixed widths make of them.
-/

namespace Apogee.Stateless

open Math Machine

namespace Spec

def blobGasPrice (fork : Fork) (excess : ℕ) : ℕ :=
  fakeExponential 1 excess fork.blobFraction.toNat

def excessBlobGas (fork : Fork) (excess used base : ℕ) : ℕ :=
  if excess + used < fork.blobTarget.toNat * gasPerBlob then 0
  else if gasPerBlob * blobGasPrice fork excess < blobBaseCost * base then
    excess + used * (fork.blobMax.toNat - fork.blobTarget.toNat) / fork.blobMax.toNat
  else excess + used - fork.blobTarget.toNat * gasPerBlob

def GasLimitFits (gasLimit parentGasLimit : ℕ) : Prop :=
  gasLimit < parentGasLimit + parentGasLimit / 1024 ∧
    parentGasLimit - parentGasLimit / 1024 < gasLimit ∧ 5000 ≤ gasLimit

def baseFee (gasLimit used base : ℕ) : ℕ :=
  if used = gasLimit / 2 then base
  else if gasLimit / 2 < used then
    base + max (base * (used - gasLimit / 2) / (gasLimit / 2) / 8) 1
  else base - base * (gasLimit / 2 - used) / (gasLimit / 2) / 8

/-- A header that its parent admits, every quantity an unbounded natural number. -/
structure ValidHeader (fork : Fork) (parent : Header) (parentHash : Word32) (header : Header) :
    Prop where
  number_pos : 1 ≤ header.number.toNat
  excess : header.excessBlobGas.toNat = excessBlobGas fork parent.excessBlobGas.toNat
    parent.blobGasUsed.toNat parent.baseFeePerGas.toNat
  gasUsed : header.gasUsed.toNat ≤ header.gasLimit.toNat
  gasLimit : GasLimitFits header.gasLimit.toNat parent.gasLimit.toNat
  baseFee : header.baseFeePerGas.toNat =
    baseFee parent.gasLimit.toNat parent.gasUsed.toNat parent.baseFeePerGas.toNat
  timestamp : parent.timestamp.toNat < header.timestamp.toNat
  number : header.number.toNat = parent.number.toNat + 1
  extraData : header.extraData.length ≤ 32
  difficulty : header.difficulty.val = List.replicate 32 0
  nonce : header.nonce.val = List.replicate 8 0
  ommersHash : header.ommersHash = emptyOmmerHash
  parentHash : header.parentHash = parentHash

end Spec

/-! ## Forks -/

/-- What the blob schedules of the forks have in common. -/
structure Fork.Scheduled (fork : Fork) : Prop where
  target : fork.blobTarget.toNat ≤ fork.blobMax.toNat
  most : 0 < fork.blobMax.toNat ∧ fork.blobMax.toNat < 2 ^ 8
  fraction : 2 ^ 22 ≤ fork.blobFraction.toNat ∧ fork.blobFraction.toNat < 2 ^ 24

/-- The three schedules. -/
def schedules : List (UInt64 × UInt64 × UInt64) :=
  [(6, 9, 5007716), (10, 15, 8346193), (14, 21, 11684671)]

theorem fork_schedule {schemaId : UInt16} {found : Fork} (known : fork schemaId = some found) :
    (found.blobTarget, found.blobMax, found.blobFraction) ∈ schedules := by
  unfold fork at known
  by_cases osaka : schemaId = 0x1201
  · rw [if_pos osaka] at known
    exact Option.some.inj known ▸ List.mem_of_getElem? (i := 0) rfl
  rw [if_neg osaka] at known
  by_cases first : schemaId = 0x1301
  · rw [if_pos first] at known
    exact Option.some.inj known ▸ List.mem_of_getElem? (i := 1) rfl
  rw [if_neg first] at known
  by_cases second : schemaId = 0x1401
  · rw [if_pos second] at known
    exact Option.some.inj known ▸ List.mem_of_getElem? (i := 2) rfl
  rw [if_neg second] at known
  obtain ⟨-, same⟩ := Option.ite_none_right_eq_some.mp known
  exact Option.some.inj same ▸ List.mem_of_getElem? (i := 2) rfl

theorem fork_scheduled {schemaId : UInt16} {found : Fork} (known : fork schemaId = some found) :
    found.Scheduled := by
  have bounds : ∀ schedule ∈ schedules, schedule.1.toNat ≤ schedule.2.1.toNat ∧
      (0 < schedule.2.1.toNat ∧ schedule.2.1.toNat < 2 ^ 8) ∧
      2 ^ 22 ≤ schedule.2.2.toNat ∧ schedule.2.2.toNat < 2 ^ 24 :=
    List.forall_mem_cons.mpr ⟨by decide, List.forall_mem_cons.mpr ⟨by decide,
      List.forall_mem_cons.mpr ⟨by decide, fun _ member => absurd member List.not_mem_nil⟩⟩⟩
  obtain ⟨target, most, fraction⟩ := bounds _ (fork_schedule known)
  exact ⟨target, most, fraction⟩

variable {schedule : Fork}

/-! ## The gas limit and the base fee -/

theorem gasLimitFits_ok (gasLimit parentGasLimit : ℕ) : gasLimitFits gasLimit parentGasLimit =
    .ok (decide (gasLimit < saturated (parentGasLimit + parentGasLimit / 1024) ∧
      parentGasLimit - parentGasLimit / 1024 < gasLimit ∧ 5000 ≤ gasLimit)) := by
  unfold gasLimitFits
  by_cases high : gasLimit < saturated (parentGasLimit + parentGasLimit / 1024)
  · simp only [sub_ok (Nat.div_le_self parentGasLimit 1024), high, true_and]
    rfl
  · simp only [high, false_and, decide_false]
    rfl

/-- A product of two `u64` fits a `u128`, with room for another. -/
theorem mul_u64_lt {a b : ℕ} (left : a < 2 ^ 64) (right : b < 2 ^ 64) :
    a * b ≤ (2 ^ 64 - 1) * (2 ^ 64 - 1) :=
  Nat.mul_le_mul (Nat.le_pred_of_lt left) (Nat.le_pred_of_lt right)

/-- The target is not zero where some limit fits. -/
theorem target_ne_zero {gasLimit parentGasLimit : ℕ}
    (fits : gasLimit < saturated (parentGasLimit + parentGasLimit / 1024) ∧
      parentGasLimit - parentGasLimit / 1024 < gasLimit ∧ 5000 ≤ gasLimit) :
    parentGasLimit / 2 ≠ 0 := by
  obtain ⟨high, -, least⟩ := fits
  have below := high.trans_le (Nat.min_le_left _ _)
  omega

theorem baseFee_ok (parent : Header) (positive : parent.gasLimit.toNat / 2 ≠ 0) :
    baseFee parent = .ok (saturated (Spec.baseFee parent.gasLimit.toNat parent.gasUsed.toNat
      parent.baseFeePerGas.toNat)) := by
  have baseBound := parent.baseFeePerGas.toNat_lt
  have usedBound := parent.gasUsed.toNat_lt
  have targetBound : parent.gasLimit.toNat / 2 < 2 ^ 64 :=
    (Nat.div_le_self _ 2).trans_lt parent.gasLimit.toNat_lt
  unfold baseFee Spec.baseFee
  dsimp only
  generalize parent.baseFeePerGas.toNat = base at baseBound ⊢
  generalize parent.gasUsed.toNat = used at usedBound ⊢
  generalize parent.gasLimit.toNat / 2 = target at targetBound positive ⊢
  by_cases same : used = target
  · rw [if_pos (Or.inr same), if_pos same]
    exact congrArg Except.ok (Nat.min_eq_left (Nat.le_pred_of_lt baseBound)).symm
  rw [if_neg (not_or.mpr ⟨positive, same⟩), if_neg same]
  by_cases above : target < used
  · have product := mul_u64_lt baseBound ((Nat.sub_le used target).trans_lt usedBound)
    have quotient := Nat.div_le_self (base * (used - target)) target
    rw [if_pos above, if_pos above, sub_ok above.le, ok_bind, mul_ok (by omega), ok_bind,
      div_ok positive, ok_bind, add_ok (by omega)]
    rfl
  · have below : target - used ≤ target := Nat.sub_le target used
    have product := mul_u64_lt baseBound (below.trans_lt targetBound)
    have quotient : base * (target - used) / target ≤ base := by
      refine Nat.div_le_of_le_mul ?_
      rw [Nat.mul_comm target]
      exact Nat.mul_le_mul_left base below
    rw [if_neg above, if_neg above, sub_ok (Nat.not_lt.mp above), ok_bind, mul_ok (by omega), ok_bind,
      div_ok positive, ok_bind, sub_ok ((Nat.div_le_self _ 8).trans quotient)]
    rfl

/-! ## The excess blob gas -/

/-- A price below `2 ^ 60` fits: its excess is below `2 ^ 44`, for from there on the fifth
term alone outgrows it. -/
theorem fits_of_price_lt (scheduled : schedule.Scheduled) {excess : ℕ}
    (price : Spec.blobGasPrice schedule excess < 2 ^ 60) :
    Fits 1 excess schedule.blobFraction.toNat := by
  obtain ⟨least, most⟩ := scheduled.fraction
  unfold Spec.blobGasPrice at price
  generalize schedule.blobFraction.toNat = denominator at least most price ⊢
  have positive : 0 < denominator := by omega
  obtain ⟨last, ends⟩ := @exists_taylorTerm_eq_zero 1 excess denominator positive
  rw [Spec.fakeExponential_eq ends] at price
  have total : taylorSum 1 excess denominator last < 2 ^ 84 := by
    have whole := (Nat.div_lt_iff_lt_mul positive).mp price
    have scale := Nat.mul_lt_mul_of_pos_left most (show 0 < 2 ^ 60 by decide)
    omega
  have inside : ∀ k, taylorTerm 1 excess denominator k ≠ 0 → k < last := by
    intro k more
    by_contra past
    exact more (taylorTerm_eq_zero_of_le ends (Nat.not_lt.mp past))
  have sums : ∀ k, taylorTerm 1 excess denominator k ≠ 0 →
      taylorSum 1 excess denominator (k + 1) < 2 ^ 84 := fun k more =>
    (taylorSum_mono (inside k more)).trans_lt total
  have narrow : excess < 2 ^ 44 := by
    by_contra wide
    -- each of the first terms is 2 ^ 17 times the one before it
    have grows : ∀ k, k < 4 → taylorTerm 1 excess denominator k * 2 ^ 17 ≤
        taylorTerm 1 excess denominator (k + 1) := by
      intro k early
      have bound : denominator * (k + 1) ≤ 2 ^ 27 :=
        (Nat.mul_le_mul most.le (show k + 1 ≤ 2 ^ 3 by omega)).trans (by decide)
      rw [taylorTerm_succ, Nat.le_div_iff_mul_le (Nat.mul_pos positive (Nat.succ_pos k)), Nat.mul_assoc]
      exact Nat.mul_le_mul_left _ ((Nat.mul_le_mul_left _ bound).trans (Nat.not_lt.mp wide))
    have first : taylorTerm 1 excess denominator 0 = denominator := Nat.one_mul denominator
    have large : 2 ^ 84 ≤ taylorTerm 1 excess denominator 4 :=
      calc 2 ^ 84 ≤ taylorTerm 1 excess denominator 0 * 2 ^ 17 * 2 ^ 17 * 2 ^ 17 * 2 ^ 17 := by omega
        _ ≤ taylorTerm 1 excess denominator 1 * 2 ^ 17 * 2 ^ 17 * 2 ^ 17 := by
          gcongr
          exact grows 0 (by decide)
        _ ≤ taylorTerm 1 excess denominator 2 * 2 ^ 17 * 2 ^ 17 := by
          gcongr
          exact grows 1 (by decide)
        _ ≤ taylorTerm 1 excess denominator 3 * 2 ^ 17 := by
          gcongr
          exact grows 2 (by decide)
        _ ≤ taylorTerm 1 excess denominator 4 := grows 3 (by decide)
    have counted : taylorTerm 1 excess denominator 4 ≤ taylorSum 1 excess denominator last :=
      taylorTerm_le_sum (inside 4 (Nat.ne_of_gt ((by decide : 0 < 2 ^ 84).trans_le large)))
    exact absurd (large.trans counted) (Nat.not_le.mpr total)
  refine ⟨by omega, fun k more => ⟨(sums k more).trans (by decide), ?_, ?_⟩⟩
  · have term : taylorTerm 1 excess denominator k < 2 ^ 84 :=
      (taylorTerm_le_sum (Nat.lt_succ_self k)).trans_lt (sums k more)
    calc taylorTerm 1 excess denominator k * excess
        ≤ taylorTerm 1 excess denominator k * 2 ^ 44 := Nat.mul_le_mul_left _ narrow.le
      _ < 2 ^ 84 * 2 ^ 44 := Nat.mul_lt_mul_of_pos_right term (by decide)
      _ = 2 ^ 128 := by decide
  · have count : k + 1 < 2 ^ 84 := (le_taylorSum (Nat.pos_of_ne_zero more)).trans_lt (sums k more)
    calc denominator * (k + 1) ≤ 2 ^ 24 * 2 ^ 84 := Nat.mul_le_mul most.le count.le
      _ < 2 ^ 128 := by decide

theorem reserveBinds_some {price targetPrice floor base : ℕ}
    (product : checkedMul 128 gasPerBlob price = some targetPrice)
    (fixed : mul 128 blobBaseCost base = .ok floor) :
    reserveBinds (some price) base = .ok (decide (targetPrice < floor)) := by
  have there : (some price).bind (checkedMul 128 gasPerBlob) = some targetPrice := product
  rw [reserveBinds, there]
  dsimp only
  rw [fixed]
  rfl

/-- The floor's comparison is the one over unbounded integers: a price that the guest's
widths lose outprices every floor. -/
theorem reserveBinds_ok (scheduled : schedule.Scheduled) (excess base : UInt64) :
    ∃ price, blobGasPrice schedule excess = .ok price ∧ reserveBinds price base.toNat =
      .ok (decide (gasPerBlob * Spec.blobGasPrice schedule excess.toNat <
        blobBaseCost * base.toNat)) := by
  have positive : 0 < schedule.blobFraction.toNat := (by decide : 0 < 2 ^ 22).trans_le scheduled.fraction.1
  obtain ⟨price, ran, exact⟩ := @fakeExponential_spec 1 excess.toNat _ positive
  refine ⟨price, ran, ?_⟩
  have floor : blobBaseCost * base.toNat < 2 ^ 77 :=
    Nat.mul_lt_mul_of_pos_left base.toNat_lt (by decide)
  have fixed : mul 128 blobBaseCost base.toNat = .ok (blobBaseCost * base.toNat) :=
    mul_ok (floor.trans (by decide))
  by_cases low : Spec.blobGasPrice schedule excess.toNat < 2 ^ 60
  · have there := (exact _).mpr ⟨fits_of_price_lt scheduled low, rfl⟩
    have product : checkedMul 128 gasPerBlob (Spec.blobGasPrice schedule excess.toNat) =
        some (gasPerBlob * Spec.blobGasPrice schedule excess.toNat) := by
      refine if_pos ?_
      calc gasPerBlob * Spec.blobGasPrice schedule excess.toNat
          < gasPerBlob * 2 ^ 60 := Nat.mul_lt_mul_of_pos_left low (by decide)
        _ < 2 ^ 128 := by decide
    rw [there]
    exact reserveBinds_some product fixed
  · have high : 2 ^ 77 ≤ gasPerBlob * Spec.blobGasPrice schedule excess.toNat :=
      Nat.mul_le_mul_left gasPerBlob (Nat.not_lt.mp low)
    have outpriced := Nat.not_lt.mpr (floor.le.trans high)
    cases price with
    | none =>
      rw [decide_eq_false outpriced]
      rfl
    | some value =>
      obtain ⟨-, same⟩ := (exact value).mp rfl
      rw [show value = Spec.blobGasPrice schedule excess.toNat from same]
      by_cases room : gasPerBlob * Spec.blobGasPrice schedule excess.toNat < 2 ^ 128
      · exact reserveBinds_some (if_pos room) fixed
      · have absent : (some (Spec.blobGasPrice schedule excess.toNat)).bind
            (checkedMul 128 gasPerBlob) = none := if_neg room
        rw [decide_eq_false outpriced, reserveBinds, absent]
        rfl

theorem excessBlobGas_ok (scheduled : schedule.Scheduled) (parent : Header) :
    excessBlobGas schedule parent =
      .ok (if parent.excessBlobGas.toNat + parent.blobGasUsed.toNat < 2 ^ 64 ∧
          Spec.excessBlobGas schedule parent.excessBlobGas.toNat parent.blobGasUsed.toNat
            parent.baseFeePerGas.toNat < 2 ^ 64 then
        some (Spec.excessBlobGas schedule parent.excessBlobGas.toNat parent.blobGasUsed.toNat
            parent.baseFeePerGas.toNat)
        else none) := by
  obtain ⟨price, priced, binds⟩ :=
    reserveBinds_ok scheduled parent.excessBlobGas parent.baseFeePerGas
  have excessBound := parent.excessBlobGas.toNat_lt
  have usedBound := parent.blobGasUsed.toNat_lt
  obtain ⟨most, few⟩ := scheduled.most
  have order := scheduled.target
  have target : schedule.blobTarget.toNat * gasPerBlob < 2 ^ 64 :=
    calc schedule.blobTarget.toNat * gasPerBlob
        ≤ 2 ^ 8 * gasPerBlob := Nat.mul_le_mul_right gasPerBlob (order.trans few.le)
      _ < 2 ^ 64 := by decide
  unfold excessBlobGas Spec.excessBlobGas
  rw [mul_ok target, ok_bind]
  by_cases summed : parent.excessBlobGas.toNat + parent.blobGasUsed.toNat < 2 ^ 64
  · have sum : checkedAdd 64 parent.excessBlobGas.toNat parent.blobGasUsed.toNat =
        some (parent.excessBlobGas.toNat + parent.blobGasUsed.toNat) := if_pos summed
    rw [sum]
    dsimp only
    by_cases below : parent.excessBlobGas.toNat + parent.blobGasUsed.toNat <
        schedule.blobTarget.toNat * gasPerBlob
    · rw [if_pos below, if_pos below, if_pos ⟨summed, by decide⟩]
      rfl
    rw [if_neg below, if_neg below, priced, ok_bind, binds, ok_bind]
    by_cases outpriced : gasPerBlob * Spec.blobGasPrice schedule parent.excessBlobGas.toNat <
        blobBaseCost * parent.baseFeePerGas.toNat
    · have product : parent.blobGasUsed.toNat * (schedule.blobMax.toNat - schedule.blobTarget.toNat) <
          2 ^ 72 := by
        calc parent.blobGasUsed.toNat * (schedule.blobMax.toNat - schedule.blobTarget.toNat)
            ≤ 2 ^ 64 * (2 ^ 8 - 1) := Nat.mul_le_mul usedBound.le (by omega)
          _ < 2 ^ 72 := by decide
      have quotient := Nat.div_le_self
        (parent.blobGasUsed.toNat * (schedule.blobMax.toNat - schedule.blobTarget.toNat))
        schedule.blobMax.toNat
      rw [if_pos outpriced, if_pos (decide_eq_true outpriced), sub_ok order, ok_bind,
        mul_ok (by omega), ok_bind, div_ok (by omega), ok_bind, add_ok (by omega), ok_bind]
      simp only [summed, true_and]
      rfl
    · have least := Nat.not_lt.mp below
      rw [if_neg outpriced, if_neg (by rw [decide_eq_false outpriced]; exact Bool.false_ne_true),
        sub_ok least, ok_bind, if_pos ⟨summed, (Nat.sub_le _ _).trans_lt summed⟩]
      rfl
  · have absent : checkedAdd 64 parent.excessBlobGas.toNat parent.blobGasUsed.toNat = none :=
      if_neg summed
    rw [absent, if_neg fun both => summed both.1]
    rfl

/-! ## The header -/

/-- The step's upper end is past every `u64`, and the header's limit is the last one. -/
def LimitSaturates (parent header : Header) : Prop :=
  2 ^ 64 ≤ parent.gasLimit.toNat + parent.gasLimit.toNat / 1024 ∧
    header.gasLimit.toNat = 2 ^ 64 - 1

/-- The base fee is past every `u64`, and the header's is the last one. -/
def FeeSaturates (parent header : Header) : Prop :=
  2 ^ 64 ≤ Spec.baseFee parent.gasLimit.toNat parent.gasUsed.toNat parent.baseFeePerGas.toNat ∧
    header.baseFeePerGas.toNat = 2 ^ 64 - 1

theorem lt_saturated_iff {n bound : ℕ} (fits : n < 2 ^ 64)
    (apart : ¬ (2 ^ 64 ≤ bound ∧ n = 2 ^ 64 - 1)) : n < saturated bound ↔ n < bound := by
  unfold saturated
  omega

theorem eq_saturated_iff {n bound : ℕ} (fits : n < 2 ^ 64)
    (apart : ¬ (2 ^ 64 ≤ bound ∧ n = 2 ^ 64 - 1)) : n = saturated bound ↔ n = bound := by
  unfold saturated
  omega

/-- A rule that passes leaves the ones after it. -/
theorem rule_ok {rule : Prop} [Decidable rule] {error : HeaderError}
    {rest : Run (Except HeaderError Unit)} :
    (if rule then pure (.error error) else rest) = .ok (.ok ()) ↔ ¬ rule ∧ rest = .ok (.ok ()) := by
  by_cases broken : rule
  · rw [if_pos broken]
    refine iff_of_false (fun same => ?_) fun both => both.1 broken
    cases Except.ok.inj same
  · rw [if_neg broken, and_iff_right broken]

theorem rule_total {rule : Prop} [Decidable rule] {error : HeaderError}
    {rest : Run (Except HeaderError Unit)} (total : ¬ rule → ∃ result, rest = .ok result) :
    ∃ result, (if rule then pure (.error error) else rest) = .ok result := by
  by_cases broken : rule
  · exact ⟨.error error, if_pos broken⟩
  · rw [if_neg broken]
    exact total broken

theorem number_checked {a b : ℕ} (fits : a < 2 ^ 64) : some a = checkedAdd 64 b 1 ↔ a = b + 1 := by
  unfold checkedAdd
  by_cases room : b + 1 < 2 ^ 64
  · rw [if_pos room, Option.some_inj]
  · rw [if_neg room]
    refine iff_of_false (Option.some_ne_none a) ?_
    omega

/-- No header panics the rules. -/
theorem validateHeader_total (scheduled : schedule.Scheduled) (parent : Header) (parentHash : Word32)
    (header : Header) : ∃ result, validateHeader schedule parent parentHash header = .ok result := by
  unfold validateHeader
  rw [excessBlobGas_ok scheduled, gasLimitFits_ok]
  simp only [ok_bind]
  refine rule_total fun _ => rule_total fun _ => rule_total fun _ => rule_total fun fits => ?_
  rw [baseFee_ok parent (target_ne_zero (of_decide_eq_true (Bool.not_eq_false _ ▸ fits))), ok_bind]
  refine rule_total fun _ => rule_total fun _ => rule_total fun _ => rule_total fun _ =>
    rule_total fun _ => rule_total fun _ => rule_total fun _ => rule_total fun _ => ?_
  exact ⟨_, rfl⟩

theorem excess_iff {excess total value : ℕ} (small : value < 2 ^ 64) :
    some value = (if total < 2 ^ 64 ∧ excess < 2 ^ 64 then some excess else none) ↔
      value = excess ∧ total < 2 ^ 64 := by
  by_cases both : total < 2 ^ 64 ∧ excess < 2 ^ 64
  · rw [if_pos both, Option.some_inj, and_iff_left both.1]
  · rw [if_neg both]
    refine iff_of_false (Option.some_ne_none value) fun same => both ⟨same.2, same.1 ▸ small⟩

/-- Where neither limit nor fee saturates, a header passes exactly when the rules over
unbounded integers admit it and the parent's excess and blob gas fit a `u64` together. -/
theorem validateHeader_iff (scheduled : schedule.Scheduled) {parent header : Header}
    (limit : ¬ LimitSaturates parent header) (fee : ¬ FeeSaturates parent header)
    (parentHash : Word32) :
    validateHeader schedule parent parentHash header = .ok (.ok ()) ↔
      Spec.ValidHeader schedule parent parentHash header ∧
        parent.excessBlobGas.toNat + parent.blobGasUsed.toNat < 2 ^ 64 := by
  have within := lt_saturated_iff header.gasLimit.toNat_lt limit
  have charged := eq_saturated_iff header.baseFeePerGas.toNat_lt fee
  unfold validateHeader
  rw [excessBlobGas_ok scheduled, gasLimitFits_ok]
  simp only [ok_bind]
  by_cases fits : header.gasLimit.toNat < saturated (parent.gasLimit.toNat + parent.gasLimit.toNat / 1024) ∧
      parent.gasLimit.toNat - parent.gasLimit.toNat / 1024 < header.gasLimit.toNat ∧
        5000 ≤ header.gasLimit.toNat
  · rw [decide_eq_true fits, baseFee_ok parent (target_ne_zero fits), ok_bind]
    simp only [rule_ok, ne_eq, Decidable.not_not, excess_iff header.excessBlobGas.toNat_lt,
      number_checked header.number.toNat_lt, charged, Nat.not_lt, Nat.not_le,
      reduceCtorEq, not_false_eq_true, true_and, UInt64.le_iff_toNat_le, UInt64.lt_iff_toNat_lt]
    constructor
    · rintro ⟨first, ⟨excess, fitting⟩, used, fee, time, next, extra, difficulty, nonce, ommers, parent, -⟩
      exact ⟨⟨first, excess, used, ⟨within.mp fits.1, fits.2⟩, fee, time, next, extra, difficulty, nonce,
        ommers, parent⟩, fitting⟩
    · rintro ⟨valid, fitting⟩
      exact ⟨valid.number_pos, ⟨valid.excess, fitting⟩, valid.gasUsed, valid.baseFee, valid.timestamp,
        valid.number, valid.extraData, valid.difficulty, valid.nonce, valid.ommersHash,
        valid.parentHash, rfl⟩
  · rw [decide_eq_false fits]
    simp only [rule_ok]
    refine iff_of_false (fun all => all.2.2.2.1 trivial) fun both => fits ?_
    exact ⟨within.mpr both.1.gasLimit.1, both.1.gasLimit.2⟩

/-- The header's rules are those over unbounded integers, apart from a parent whose excess and
blob gas overflow a `u64`, which is refused; and the checked exponential is the unbounded
loop's wherever each of its products and sums fits 128 bits. Neither ever panics. -/
theorem header_arithmetic :
    (∀ schemaId schedule parent parentHash header, fork schemaId = some schedule →
      (∃ result, validateHeader schedule parent parentHash header = .ok result) ∧
        (¬ LimitSaturates parent header → ¬ FeeSaturates parent header →
          (validateHeader schedule parent parentHash header = .ok (.ok ()) ↔
            Spec.ValidHeader schedule parent parentHash header ∧
              parent.excessBlobGas.toNat + parent.blobGasUsed.toNat < 2 ^ 64))) ∧
      ∀ factor numerator denominator, 0 < denominator →
        ∃ result, fakeExponential factor numerator denominator = .ok result ∧
          ∀ v, result = some v ↔ Fits factor numerator denominator ∧
            v = Spec.fakeExponential factor numerator denominator := by
  refine ⟨fun schemaId schedule parent parentHash header known => ?_, fun factor numerator denominator =>
    fakeExponential_spec⟩
  have scheduled := fork_scheduled known
  exact ⟨validateHeader_total scheduled parent parentHash header, fun limit fee =>
    validateHeader_iff scheduled limit fee parentHash⟩

/-- A header with nothing in it, the child of one with nothing in it. -/
def bareHeader (number gasLimit gasUsed baseFee blobGasUsed excess : UInt64) : Header :=
  { parentHash := ⟨List.replicate 32 0, List.length_replicate⟩
    ommersHash := emptyOmmerHash
    coinbase := ⟨List.replicate 20 0, List.length_replicate⟩
    stateRoot := ⟨List.replicate 32 0, List.length_replicate⟩
    transactionsRoot := ⟨List.replicate 32 0, List.length_replicate⟩
    receiptsRoot := ⟨List.replicate 32 0, List.length_replicate⟩
    bloom := ⟨List.replicate 256 0, List.length_replicate⟩
    difficulty := ⟨List.replicate 32 0, List.length_replicate⟩
    number := number
    gasLimit := gasLimit
    gasUsed := gasUsed
    timestamp := number
    extraData := []
    prevRandao := ⟨List.replicate 32 0, List.length_replicate⟩
    nonce := ⟨List.replicate 8 0, List.length_replicate⟩
    baseFeePerGas := baseFee
    withdrawalsRoot := ⟨List.replicate 32 0, List.length_replicate⟩
    blobGasUsed := blobGasUsed
    excessBlobGas := excess
    parentBeaconBlockRoot := ⟨List.replicate 32 0, List.length_replicate⟩
    requestsHash := ⟨List.replicate 32 0, List.length_replicate⟩
    blockAccessListHash := none
    slotNumber := none }

def zeroWord : Word32 := ⟨List.replicate 32 0, List.length_replicate⟩

def osaka : Fork := ⟨0x1201, .osaka, false, 6, 9, 5007716⟩

theorem header_arithmetic_bare :
    fork 0x1201 = some osaka ∧
      ¬ LimitSaturates (bareHeader 0 30000 15000 7 0 0) (bareHeader 1 30000 0 7 0 0) ∧
      ¬ FeeSaturates (bareHeader 0 30000 15000 7 0 0) (bareHeader 1 30000 0 7 0 0) ∧
      (validateHeader osaka (bareHeader 0 30000 15000 7 0 0) zeroWord
          (bareHeader 1 30000 0 7 0 0) = .ok (.ok ()) ↔
        Spec.ValidHeader osaka (bareHeader 0 30000 15000 7 0 0) zeroWord
            (bareHeader 1 30000 0 7 0 0) ∧ 0 + 0 < 2 ^ 64) ∧
      ∃ result, fakeExponential 1 0 5007716 = .ok result ∧ ∀ v, result = some v ↔
        Fits 1 0 5007716 ∧ v = Spec.fakeExponential 1 0 5007716 := by
  have limit : ¬ LimitSaturates (bareHeader 0 30000 15000 7 0 0) (bareHeader 1 30000 0 7 0 0) :=
    fun both => absurd both.2 (by decide)
  have fee : ¬ FeeSaturates (bareHeader 0 30000 15000 7 0 0) (bareHeader 1 30000 0 7 0 0) :=
    fun both => absurd both.2 (by decide)
  exact ⟨rfl, limit, fee, (header_arithmetic.1 0x1201 osaka _ _ _ rfl).2 limit fee,
    header_arithmetic.2 1 0 5007716 (by decide)⟩

/-- A parent whose excess and blob gas overflow a `u64` together, and its child. -/
def overflowing : Header × Header :=
  (bareHeader 0 30000 15000 0 1 18446744073709551615, bareHeader 1 30000 0 0 0 18446744073708765184)

/-- A parent at the end of the gas limits, and its child there too. -/
def limitless : Header × Header :=
  (bareHeader 0 18446744073709551615 9223372036854775807 0 0 0, bareHeader 1 18446744073709551615 0 0 0 0)

/-- A parent at the end of the base fees, and its child there too. -/
def costly : Header × Header :=
  (bareHeader 0 30000 30000 18446744073709551615 0 0, bareHeader 1 30000 0 18446744073709551615 0 0)

/-- A parent whose excess and blob gas overflow is refused, though the unbounded rules admit
its child. -/
theorem overflow_refused : Spec.ValidHeader osaka overflowing.1 zeroWord overflowing.2 ∧
      validateHeader osaka overflowing.1 zeroWord overflowing.2 ≠ .ok (.ok ()) := by
  refine ⟨⟨by decide, ?_, by decide, ?_, by decide, by decide, by decide, by decide, rfl, rfl, rfl,
    rfl⟩, ?_⟩
  · have floor : ¬ gasPerBlob * Spec.blobGasPrice osaka
        overflowing.1.excessBlobGas.toNat < blobBaseCost * 0 :=
      Nat.not_lt_zero _
    rw [Spec.excessBlobGas, if_neg (by decide)]
    exact (if_neg floor).symm
  · exact ⟨by decide, by decide, by decide⟩
  · intro ran
    have limit : ¬ LimitSaturates overflowing.1
        overflowing.2 := fun both => absurd both.2 (by decide)
    have fee : ¬ FeeSaturates overflowing.1
        overflowing.2 := fun both => absurd both.2 (by decide)
    have scheduled : osaka.Scheduled := @fork_scheduled 0x1201 osaka rfl
    exact absurd ((validateHeader_iff scheduled limit fee zeroWord).mp ran).2 (by decide)

/-- The last gas limit of a `u64` is refused where the step reaches past it. -/
theorem limit_refused : Spec.ValidHeader osaka limitless.1 zeroWord limitless.2 ∧
      validateHeader osaka limitless.1 zeroWord limitless.2 = .ok (.error .gasLimit) := by
  refine ⟨⟨by decide, by decide, by decide, ?_, by decide, by decide, by decide, by decide, rfl,
    rfl, rfl, rfl⟩, ?_⟩
  · exact ⟨by decide, by decide, by decide⟩
  · decide

/-- The last base fee of a `u64` is accepted where the true one is past it. -/
theorem fee_accepted : ¬ Spec.ValidHeader osaka costly.1 zeroWord costly.2 ∧
      validateHeader osaka costly.1 zeroWord costly.2 = .ok (.ok ()) := by
  refine ⟨fun valid => absurd valid.baseFee (by decide), ?_⟩
  decide

/-- The exponential is nothing where its result fits but the scaled sum does not. -/
theorem scaled_refused :
    Spec.fakeExponential (2 ^ 127) 0 4 = 2 ^ 127 ∧ fakeExponential (2 ^ 127) 0 4 = .ok none := by
  constructor
  · rw [Spec.fakeExponential, taylorLoop, if_neg (by decide), taylorLoop, if_pos (by decide)]
    decide
  · have absent : checkedMul 128 (2 ^ 127) 4 = none := if_neg (by decide)
    rw [fakeExponential, absent]
    rfl

/-- Where the guest's widths and the unbounded rules part. -/
theorem header_arithmetic_differs :
    (Spec.ValidHeader osaka overflowing.1 zeroWord overflowing.2 ∧
      validateHeader osaka overflowing.1 zeroWord overflowing.2 ≠ .ok (.ok ())) ∧
    (Spec.ValidHeader osaka limitless.1 zeroWord limitless.2 ∧
      validateHeader osaka limitless.1 zeroWord limitless.2 = .ok (.error .gasLimit)) ∧
    (¬ Spec.ValidHeader osaka costly.1 zeroWord costly.2 ∧
      validateHeader osaka costly.1 zeroWord costly.2 = .ok (.ok ())) ∧
    Spec.fakeExponential (2 ^ 127) 0 4 = 2 ^ 127 ∧ fakeExponential (2 ^ 127) 0 4 = .ok none :=
  ⟨overflow_refused, limit_refused, fee_accepted, scaled_refused⟩

end Apogee.Stateless
