import Apogee.Rlp.Canonical
import Mathlib.Data.Nat.Size

/-! # Lengths without the bytes

How long a header is, and how long a block's encoding would be, computed without
writing them.
-/

namespace Apogee.Rlp

open Bounds (Attempt add index ok_bind)

/-- How many of a width's bits are zero above a number's highest. -/
def leadingZeros (width n : ℕ) : ℕ := width - Nat.size n

/-- How many bytes a string or list header for a `len`-byte payload takes. -/
def headerLen (usize len : ℕ) : ℕ :=
  if len ≤ 55 then 1 else 1 + (8 * usize - leadingZeros (8 * usize) len + 7) / 8

/-- Minimal digits are as many as eight bits each take. -/
theorem length_bigEndian {n : ℕ} (positive : n ≠ 0) :
    (Canonical.bigEndian n).length = (Nat.size n + 7) / 8 := by
  rw [Canonical.bigEndian, List.length_reverse, List.length_map]
  have below := Nat.lt_base_pow_length_digits (b := 256) (m := n) (by decide)
  have least := Nat.base_pow_length_digits_le 256 n (by decide) positive
  generalize (Nat.digits 256 n).length = count at below least
  have most : Nat.size n ≤ 8 * count := by
    rw [Nat.size_le, pow_mul]
    exact below
  have some : 8 * count < Nat.size n + 8 := by
    rcases count with _ | count
    · omega
    · have bits : 8 * count < Nat.size n := by
        rw [Nat.lt_size, pow_mul]
        rw [pow_succ] at least
        change 256 ^ count ≤ n
        omega
      omega
  omega

/-- **The length of a header is the number of bytes written for it.** -/
theorem length_encodeHeader {usize len : ℕ} (wide : usize ≤ 8) (counted : len ≤ maxOf usize)
    (short : UInt8) : (encodeHeader len short).length = headerLen usize len := by
  unfold encodeHeader headerLen
  by_cases small : len ≤ 55
  · rw [if_pos small, if_pos small, List.length_singleton]
  · have positive : len ≠ 0 := fun zero => small (zero ▸ Nat.zero_le _)
    have fits : Nat.size len ≤ 8 * usize := by
      rw [Nat.size_le, pow_mul]
      exact Nat.lt_of_succ_le ((Nat.succ_le_succ counted).trans_eq (succ_maxOf usize))
    rw [if_neg small, if_neg small, bigEndian_eq (counted.trans_lt (maxOf_lt usize wide)),
      List.length_cons, length_bigEndian positive, leadingZeros, Nat.sub_sub_self fits,
        Nat.add_comm]

/-! ## A block -/

/-- How long a transaction's encoding is in a block: a legacy one is its own list, and a
typed one a byte string. -/
def transactionLen (usize : ℕ) (tx : List UInt8) : Attempt ℕ := do
  if tx.head?.any (0xc0 ≤ ·) then pure tx.length
  else if tx.length = 1 then
    let byte ← index tx 0
    if byte < 0x80 then pure 1 else add usize (headerLen usize tx.length) tx.length
  else add usize (headerLen usize tx.length) tx.length

/-- The length of a block's encoding, `[header, transactions, ommers = [], withdrawals]`. -/
def blockRlpLen (usize : ℕ) (header : List UInt8) (transactions withdrawals : List (List UInt8)) :
    Attempt ℕ := do
  let txs ← transactions.foldlM (fun txs tx => transactionLen usize tx >>= add usize txs) 0
  let withdrawals ← withdrawals.foldlM (fun sum withdrawal => add usize sum withdrawal.length) 0
  let headers ← add usize header.length (headerLen usize txs)
  let transactions ← add usize headers txs
  let ommers ← add usize transactions 1
  let lists ← add usize ommers (headerLen usize withdrawals)
  let payload ← add usize lists withdrawals
  add usize (headerLen usize payload) payload

def transactionRlp (tx : List UInt8) : List UInt8 :=
  if tx.head?.any (0xc0 ≤ ·) then tx else encodeBytes tx

/-- A block's encoding. -/
def blockRlp (header : List UInt8) (transactions withdrawals : List (List UInt8)) : List UInt8 :=
  encodeList (header ++ encodeList (transactions.map transactionRlp).flatten ++ encodeList [] ++
    encodeList withdrawals.flatten)

/-- A length, when a `usize` counts it. -/
def counted (usize n : ℕ) : Attempt ℕ := if n ≤ maxOf usize then .ok n else .error .panic

variable {usize : ℕ}

theorem counted_bind {α : Type} {n : ℕ} {first : ℕ → Attempt α} (second : ℕ → Attempt α)
    (within : n ≤ maxOf usize → first n = second n)
      (beyond : maxOf usize < n → second n = .error .panic) :
    counted usize n >>= first = second n := by
  unfold counted
  by_cases fits : n ≤ maxOf usize
  · rw [if_pos fits]
    exact within fits
  · rw [if_neg fits]
    exact (beyond (Nat.not_le.mp fits)).symm

theorem counted_beyond {n : ℕ} (beyond : maxOf usize < n) : counted usize n = .error .panic :=
  if_neg (Nat.not_le.mpr beyond)

/-- A sum of lengths stops the guest when no `usize` counts it, in whichever order. -/
theorem counted_add {a b : ℕ} : counted usize a >>= add usize b = counted usize (b + a) :=
  counted_bind (fun n => counted usize (b + n)) (fun _ => rfl)
    fun beyond => counted_beyond (beyond.trans_le (Nat.le_add_left a b))

theorem counted_add_left {a b : ℕ} :
    (counted usize a >>= fun sum => add usize sum b) = counted usize (a + b) :=
  counted_bind (fun n => counted usize (n + b)) (fun _ => rfl)
    fun beyond => counted_beyond (beyond.trans_le (Nat.le_add_right a b))

theorem counted_add_next {α : Type} {a b : ℕ} {next : ℕ → Attempt α} :
    (counted usize a >>= fun sum => add usize sum b >>= next) = counted usize (a + b) >>= next := by
  rw [← counted_add_left, bind_assoc]

theorem foldlM_counted {α : Type} (step : ℕ → α → Attempt ℕ) (measure : α → ℕ)
    (adds : ∀ sum x, step sum x = counted usize (sum + measure x)) (xs : List α) (sum : ℕ)
    (fits : sum ≤ maxOf usize) :
    xs.foldlM step sum = counted usize (sum + (xs.map measure).sum) := by
  induction xs generalizing sum with
  | nil => exact (if_pos fits).symm
  | cons x xs ih =>
    rw [List.foldlM_cons, adds, List.map_cons, List.sum_cons, ← Nat.add_assoc]
    refine counted_bind (fun n => counted usize (n + (xs.map measure).sum))
      (fun fits => ih _ fits) fun beyond => ?_
    exact counted_beyond (beyond.trans_le (Nat.le_add_right _ _))

theorem transactionLen_add (wide : usize ≤ 8) (sum : ℕ) (tx : List UInt8) :
    transactionLen usize tx >>= add usize sum = counted usize (sum + (transactionRlp tx).length) := by
  unfold transactionLen transactionRlp
  by_cases legacy : tx.head?.any (0xc0 ≤ ·)
  · rw [if_pos legacy, if_pos legacy]
    rfl
  rw [if_neg legacy, if_neg legacy, encodeBytes]
  have header : add usize (headerLen usize tx.length) tx.length =
      counted usize (encodeHeader tx.length 0x80 ++ tx).length := by
    rw [List.length_append]
    rcases Nat.lt_or_ge (maxOf usize) tx.length with beyond | small
    · rw [counted_beyond (beyond.trans_le (Nat.le_add_left _ _))]
      exact counted_beyond (beyond.trans_le (Nat.le_add_left _ _))
    · rw [length_encodeHeader wide small]
      rfl
  by_cases one : tx.length = 1
  · obtain ⟨byte, rfl⟩ := List.length_eq_one_iff.mp one
    have ascii : ([byte].length = 1 ∧ [byte].all (· < 0x80) = true) ↔ byte < 0x80 := by simp
    have read : index [byte] 0 = .ok byte := rfl
    rw [if_pos one, read, ok_bind]
    by_cases low : byte < 0x80
    · rw [if_pos low, if_pos (ascii.mpr low)]
      rfl
    · rw [if_neg low, if_neg fun both => low (ascii.mp both), header, counted_add]
  · rw [if_neg one, if_neg fun both => one both.1, header, counted_add]

/-- A list's length, from its payload's. -/
theorem length_encodeList (payload : List UInt8) :
    (encodeList payload).length = (encodeHeader payload.length 0xc0).length + payload.length := by
  rw [encodeList, List.length_append]

/-- A block's length, from its parts'. -/
def blockLen (header txs withdrawals : ℕ) : ℕ :=
  let payload := header + ((encodeHeader txs 0xc0).length + txs) + 1 +
    ((encodeHeader withdrawals 0xc0).length + withdrawals)
  (encodeHeader payload 0xc0).length + payload

theorem blockLen_ge (header txs withdrawals : ℕ) :
    txs ≤ blockLen header txs withdrawals ∧ withdrawals ≤ blockLen header txs withdrawals := by
  unfold blockLen
  dsimp only
  omega

/-- **A block's length is that of its encoding**, and stops the guest exactly when no `usize`
counts it. -/
theorem blockRlpLen_eq (wide : usize ≤ 8) (header : List UInt8)
    (transactions withdrawals : List (List UInt8)) :
    blockRlpLen usize header transactions withdrawals =
      counted usize (blockRlp header transactions withdrawals).length := by
  have txs := foldlM_counted _ _ (transactionLen_add wide) transactions 0 (Nat.zero_le _)
  have sums := foldlM_counted (fun sum (withdrawal : List UInt8) => add usize sum withdrawal.length)
    List.length (fun sum withdrawal => rfl) withdrawals 0 (Nat.zero_le _)
  have flat : (transactions.map fun tx => (transactionRlp tx).length).sum =
      (transactions.map transactionRlp).flatten.length := by
    rw [List.length_flatten, List.map_map]
    rfl
  rw [Nat.zero_add, flat] at txs
  rw [Nat.zero_add, ← List.length_flatten] at sums
  rw [blockRlpLen, txs, sums, blockRlp, length_encodeList, List.length_append, List.length_append,
    List.length_append, length_encodeList (transactions.map _).flatten,
    length_encodeList withdrawals.flatten]
  generalize (transactions.map transactionRlp).flatten.length = txs
  generalize withdrawals.flatten.length = withdrawals
  have empty : (encodeList []).length = 1 := rfl
  rw [empty]
  refine counted_bind (fun txs => counted usize (blockLen header.length txs withdrawals))
    (fun txsFit => ?_) fun beyond => counted_beyond (beyond.trans_le (blockLen_ge _ _ _).1)
  refine counted_bind (fun withdrawals =>
      counted usize (blockLen header.length txs withdrawals))
    (fun withdrawalsFit => ?_) fun beyond => counted_beyond (beyond.trans_le (blockLen_ge _ _ _).2)
  change counted usize _ >>= _ = _
  rw [counted_add_next, counted_add_next, counted_add_next, counted_add_next,
    ← length_encodeHeader wide txsFit 0xc0, ← length_encodeHeader wide withdrawalsFit 0xc0,
      blockLen,
    ← Nat.add_assoc header.length, ← Nat.add_assoc (_ + 1)]
  refine counted_bind (fun payload =>
      counted usize ((encodeHeader payload 0xc0).length + payload))
    (fun payloadFits => ?_) fun beyond => counted_beyond (beyond.trans_le (Nat.le_add_left _ _))
  rw [← length_encodeHeader wide payloadFits 0xc0]
  rfl

/-! ## Envelopes -/

/-- A transaction in its envelope: a legacy one is a list, a typed one its type and a
payload. -/
inductive Envelope where
  | legacy (items : List Value)
  | typed (kind : UInt8) (payload : List UInt8) (low : kind < 0x80)

def Envelope.bytes : Envelope → List UInt8
  | .legacy items => (Value.list items).encode
  | .typed kind payload _ => kind :: payload

/-- What a block holds for a transaction. -/
def Envelope.value : Envelope → Value
  | .legacy items => .list items
  | .typed kind payload _ => .string (kind :: payload)

/-- A block as a value. -/
def blockValue (header : Value) (transactions : List Envelope) (withdrawals : List Value) : Value :=
  .list [header, .list (transactions.map Envelope.value), .list [], .list withdrawals]

/-- A list starts with a byte that no string and no type starts with. -/
theorem head_encodeList (payload : List UInt8) :
    (encodeList payload).head?.any (0xc0 ≤ ·) = true := by
  have short : ∀ n, n ≤ 55 → (0xc0 : UInt8) ≤ 0xc0 + UInt8.ofNat n := by decide
  have long : ∀ n, n ≤ 8 → (0xc0 : UInt8) ≤ 0xc0 + 55 + UInt8.ofNat n := by decide
  unfold encodeList encodeHeader
  by_cases small : payload.length ≤ 55
  · rw [if_pos small, List.singleton_append, List.head?_cons, Option.any_some, decide_eq_true_eq]
    exact short _ small
  · have digits := (List.dropWhile_suffix (· == 0) (l := beBytes 8 payload.length)).length_le
    rw [beBytes, List.length_reverse, Math.leBytes_length] at digits
    rw [if_neg small, List.cons_append, List.head?_cons, Option.any_some, decide_eq_true_eq]
    exact long _ digits

theorem transactionRlp_bytes (transaction : Envelope) :
    transactionRlp transaction.bytes = transaction.value.encode := by
  cases transaction with
  | legacy items =>
    rw [Envelope.bytes, Envelope.value, transactionRlp, Value.encode, if_pos (head_encodeList _)]
  | typed kind payload low =>
    have below : ¬ (0xc0 ≤ kind) :=
      UInt8.not_le.mpr (UInt8.lt_trans low (show (0x80 : UInt8) < 0xc0 by decide))
    rw [Envelope.bytes, Envelope.value, transactionRlp, Value.encode, if_neg]
    rw [List.head?_cons, Option.any_some, decide_eq_true_eq]
    exact below

theorem blockRlp_value (header : Value) (transactions : List Envelope) (withdrawals : List Value) :
    blockRlp header.encode (transactions.map Envelope.bytes) (withdrawals.map Value.encode) =
      (blockValue header transactions withdrawals).encode := by
  have envelopes : (transactions.map Envelope.bytes).map transactionRlp =
      (transactions.map Envelope.value).map Value.encode := by
    rw [List.map_map, List.map_map]
    exact List.map_congr_left fun transaction _ => transactionRlp_bytes transaction
  rw [blockRlp, envelopes, ← Value.encodeAll_eq, ← Value.encodeAll_eq, blockValue, Value.encode,
    Value.encodeAll, Value.encodeAll, Value.encodeAll, Value.encodeAll, Value.encodeAll,
      Value.encode,
    Value.encode, Value.encode, Value.encodeAll, List.append_nil, List.append_assoc,
      List.append_assoc]

end Apogee.Rlp
