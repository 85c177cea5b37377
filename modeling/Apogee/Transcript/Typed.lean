import Apogee.Math.Framing
import Apogee.Transcript.Duplex
import Apogee.Verifier.Wire

/-! # The transcript, as its events

A transcript is the list of its events and a source of challenges: any function
of the events so far. Nothing else is known of how a challenge is drawn, so
what holds here holds of every transcript that is deterministic in what it
absorbed.
-/

namespace Apogee

/-- One typed-layer operation: a message absorbed, or a challenge drawn. -/
inductive TranscriptEvent
  | absorb (tag : ℕ) (scalars : List Fr)
  | challenge (tag : ℕ) (value : Fr)
deriving DecidableEq

/-- The events so far, and how a challenge is drawn from them. -/
structure Transcript where
  source : List TranscriptEvent → ℕ → Fr
  events : List TranscriptEvent

namespace Transcript

def appendScalars (tag : ℕ) (scalars : List Fr) (t : Transcript) : Transcript :=
  { t with events := t.events ++ [.absorb tag scalars] }

/-- The challenge the transcript would draw next. -/
def draw (tag : ℕ) (t : Transcript) : Fr := t.source t.events tag

/-- The transcript once a challenge is drawn. -/
def drawn (tag : ℕ) (t : Transcript) : Transcript :=
  { t with events := t.events ++ [.challenge tag (t.draw tag)] }

/-- Several challenges under one tag, in order. -/
def challengeScalars (tag : ℕ) : ℕ → Transcript → List Fr × Transcript
  | 0, t => ([], t)
  | count + 1, t =>
    let rest := challengeScalars tag count (t.drawn tag)
    (t.draw tag :: rest.1, rest.2)

theorem challengeScalars_length (tag count : ℕ) (t : Transcript) :
    (challengeScalars tag count t).1.length = count := by
  induction count generalizing t with
  | zero => rfl
  | succ count ih => rw [challengeScalars, List.length_cons, ih]

end Transcript

namespace TranscriptTag

def sumcheckRound : ℕ := 4
def sumcheckChallenge : ℕ := 5
def gkrOutputs : ℕ := 25
def gkrOutputPoint : ℕ := 26
def gkrBatch : ℕ := 27
def gkrLayerClaims : ℕ := 28
def gkrChild : ℕ := 29

end TranscriptTag

end Apogee

/-! ## The typed layer

Every message is a tag, a length and a payload, over the duplex. A message of
either kind is framed, so a sponge's stream is read back message by message.
-/

namespace Apogee

open Apogee.Math

namespace TranscriptTag

def protocolSuite : ℕ := 1
def publicInputs : ℕ := 2
def commitment : ℕ := 3
def publicInputStream : ℕ := 20
def publicOutputStream : ℕ := 21
def programIdentity : ℕ := 22
def vmConfig : ℕ := 23
def shardCounts : ℕ := 24
def memoryWindows : ℕ := 30
def memoryBoundary : ℕ := 31
def programEntry : ℕ := 32
def lookupChallenge : ℕ := 33
def srsDigest : ℕ := 34
def srsVerifier : ℕ := 35
def memoryGroup : ℕ := 36
def memoryChallenge : ℕ := 37
def globalStateDigest : ℕ := 38
def shardSeed : ℕ := 39
def shardTsWindow : ℕ := 40
def genericTable : ℕ := 41

end TranscriptTag

/-- A list that fits in memory: an allocation is below `2 ^ 63` bytes. -/
def Allocated {α : Type} (itemBytes : ℕ) (values : List α) : Prop :=
  itemBytes * values.length < 2 ^ 63

instance {α : Type} (itemBytes : ℕ) (values : List α) : Decidable (Allocated itemBytes values) :=
  inferInstanceAs (Decidable (_ < _))

theorem Allocated.length_lt {α : Type} {itemBytes : ℕ} {values : List α}
    (held : Allocated itemBytes values) (positive : 0 < itemBytes) :
    values.length < 2 ^ 63 :=
  (Nat.le_mul_of_pos_left _ positive).trans_lt held

/-- What the point at infinity absorbs in each lane: above every 128-bit limb. -/
def g1InfinitySentinel : Fr := ((2 ^ 128 : ℕ) : Fr)

/-- A point's four limbs: its halves' halves, or the sentinels for all zero bytes. -/
def g1Limbs (point : FixedBytes 64) : List Fr :=
  if point.1.all (· == 0) then List.replicate 4 g1InfinitySentinel
  else
    [(leValue (point.1.take 16) : Fr), (leValue ((point.1.drop 16).take 16) : Fr),
      (leValue ((point.1.drop 32).take 16) : Fr), (leValue (point.1.drop 48) : Fr)]

/-- A scalar message's stream. -/
def message (tag : ℕ) (xs : List Fr) : List Fr := (tag : Fr) :: (xs.length : Fr) :: xs

/-- A byte message's stream: 31 bytes an element. -/
def bytesMessage (tag : ℕ) (bytes : List UInt8) : List Fr :=
  (tag : Fr) :: (bytes.length : Fr) :: (chunks 31 bytes).map fun chunk => (leValue chunk : Fr)

/-- A point list's stream. -/
def pointsMessage (tag : ℕ) (points : List (FixedBytes 64)) : List Fr :=
  message tag (points.flatMap g1Limbs)

namespace Duplex

variable (permute : Lanes → Lanes)

def appendScalars (tag : ℕ) (xs : List Fr) (t : Duplex) : Duplex :=
  xs.foldl (fun t x => t.observe permute x)
    ((t.observe permute (tag : Fr)).observe permute (xs.length : Fr))

def appendScalar (tag : ℕ) (x : Fr) (t : Duplex) : Duplex := t.appendScalars permute tag [x]

def appendBytes (tag : ℕ) (bytes : List UInt8) (t : Duplex) : Duplex :=
  ((chunks 31 bytes).map fun chunk => (leValue chunk : Fr)).foldl
    (fun t x => t.observe permute x)
    ((t.observe permute (tag : Fr)).observe permute (bytes.length : Fr))

def challengeScalar (tag : ℕ) (t : Duplex) : Fr × Duplex :=
  (t.observe permute (tag : Fr)).sample permute

/-- Several challenges under one tag, in order. -/
def challengeScalars (tag : ℕ) : ℕ → Duplex → List Fr × Duplex
  | 0, t => ([], t)
  | count + 1, t =>
    let drawn := t.challengeScalar permute tag
    let rest := challengeScalars tag count drawn.2
    (drawn.1 :: rest.1, rest.2)

def appendG1Points (tag : ℕ) (points : List (FixedBytes 64)) (t : Duplex) : Duplex :=
  t.appendScalars permute tag (points.flatMap g1Limbs)

@[simp]
theorem appendScalars_observed (tag : ℕ) (xs : List Fr) (t : Duplex) :
    (t.appendScalars permute tag xs).observed = t.observed ++ message tag xs := by
  rw [appendScalars, foldl_observe_observed, observe_observed, observe_observed, message,
    List.append_assoc, List.append_assoc]
  rfl

@[simp]
theorem appendScalar_observed (tag : ℕ) (x : Fr) (t : Duplex) :
    (t.appendScalar permute tag x).observed = t.observed ++ message tag [x] :=
  appendScalars_observed permute tag [x] t

@[simp]
theorem appendBytes_observed (tag : ℕ) (bytes : List UInt8) (t : Duplex) :
    (t.appendBytes permute tag bytes).observed = t.observed ++ bytesMessage tag bytes := by
  rw [appendBytes, foldl_observe_observed, observe_observed, observe_observed, bytesMessage,
    List.append_assoc, List.append_assoc]
  rfl

@[simp]
theorem appendG1Points_observed (tag : ℕ) (points : List (FixedBytes 64)) (t : Duplex) :
    (t.appendG1Points permute tag points).observed = t.observed ++ pointsMessage tag points :=
  appendScalars_observed permute tag _ t

@[simp]
theorem challengeScalar_observed (tag : ℕ) (t : Duplex) :
    (t.challengeScalar permute tag).2.observed = t.observed ++ [(tag : Fr)] := by
  rw [challengeScalar, sample_observed, observe_observed]

@[simp]
theorem challengeScalars_observed (tag count : ℕ) (t : Duplex) :
    (t.challengeScalars permute tag count).2.observed =
      t.observed ++ List.replicate count (tag : Fr) := by
  induction count generalizing t with
  | zero => rw [challengeScalars, List.replicate_zero, List.append_nil]
  | succ count ih =>
    rw [challengeScalars, ih, challengeScalar_observed, List.append_assoc, List.replicate_succ,
      List.singleton_append]

end Duplex

/-- What `io_digest`'s own sponge absorbs. -/
def ioSponge (permute : Lanes → Lanes) (publicInput publicOutput : List UInt8) : Duplex :=
  (Duplex.new.appendBytes permute TranscriptTag.publicInputStream publicInput).appendBytes permute
    TranscriptTag.publicOutputStream publicOutput

def ioDigest (permute : Lanes → Lanes) (publicInput publicOutput : List UInt8) : Fr :=
  ((ioSponge permute publicInput publicOutput).sample permute).1

section Framing

theorem leValue_inj {xs ys : List UInt8} (lengths : xs.length = ys.length)
    (same : leValue xs = leValue ys) : xs = ys := by
  rw [← leBytes_leValue xs, ← leBytes_leValue ys, lengths, same]

/-- Equally long byte strings below 32 bytes have distinct elements. -/
theorem leScalar_inj {xs ys : List UInt8} (short : xs.length ≤ 31) (lengths : xs.length = ys.length)
    (same : (leValue xs : Fr) = leValue ys) : xs = ys := by
  have room : ∀ {bytes : List UInt8}, bytes.length ≤ 31 → leValue bytes < 2 ^ 250 := by
    intro bytes below
    calc leValue bytes < 256 ^ bytes.length := leValue_lt bytes
      _ ≤ 256 ^ 31 := Nat.pow_le_pow_right (by decide) below
      _ ≤ 2 ^ 250 := by decide
  exact leValue_inj lengths (fr_natCast_inj (room short) (room (lengths ▸ short)) same)

theorem message_framed (tag : ℕ) :
    Framed (fun xs : List Fr => xs.length < 2 ^ 250) (message tag) := by
  intro xs ys rest rest' shortX shortY same
  simp only [message, List.cons_append, List.cons.injEq, true_and] at same
  exact List.append_inj same.2 (fr_natCast_inj shortX shortY same.1)

theorem bytesMessage_framed (tag : ℕ) :
    Framed (fun bytes : List UInt8 => bytes.length < 2 ^ 250) (bytesMessage tag) := by
  intro xs ys rest rest' shortX shortY same
  simp only [bytesMessage, List.cons_append, List.cons.injEq, true_and] at same
  have lengths : xs.length = ys.length := fr_natCast_inj shortX shortY same.1
  obtain ⟨elements, rests⟩ := List.append_inj same.2 (by
    rw [List.length_map, List.length_map, chunks_length (by decide) xs ys lengths])
  refine ⟨chunks_inj (by decide) ?_ xs ys lengths elements, rests⟩
  exact fun _ _ short equal elements => leScalar_inj short equal elements

theorem g1Limbs_length (point : FixedBytes 64) : (g1Limbs point).length = 4 := by
  unfold g1Limbs
  by_cases infinite : point.1.all (· == 0)
  · rw [if_pos infinite, List.length_replicate]
  · rw [if_neg infinite]
    rfl

/-- Sixteen bytes are below the sentinel. -/
theorem limb_lt {bytes : List UInt8} (length : bytes.length = 16) : leValue bytes < 2 ^ 128 := by
  have small := leValue_lt bytes
  rw [length] at small
  exact small

/-- Limbs that are equal are the same bytes. -/
theorem limb_inj {xs ys : List UInt8} (lengthX : xs.length = 16) (lengthY : ys.length = 16)
    (same : (leValue xs : Fr) = leValue ys) : xs = ys := by
  apply leScalar_inj _ (lengthX.trans lengthY.symm) same
  rw [lengthX]
  decide

/-- No limb is the sentinel. -/
theorem limb_ne_sentinel {bytes : List UInt8} (length : bytes.length = 16) :
    (leValue bytes : Fr) ≠ g1InfinitySentinel := by
  intro same
  have value : leValue bytes = 2 ^ 128 :=
    fr_natCast_inj ((limb_lt length).trans (by decide)) (by decide) same
  exact (limb_lt length).ne value

theorem quarter_length (point : FixedBytes 64) : (point.1.take 16).length = 16 ∧
    ((point.1.drop 16).take 16).length = 16 ∧ ((point.1.drop 32).take 16).length = 16 ∧
      (point.1.drop 48).length = 16 := by
  simp only [List.length_take, List.length_drop, point.2]
  decide

/-- A point's bytes are its four quarters. -/
theorem quarters (bytes : List UInt8) : bytes = bytes.take 16 ++ ((bytes.drop 16).take 16 ++
    ((bytes.drop 32).take 16 ++ bytes.drop 48)) := by
  have third : (bytes.drop 32).take 16 ++ bytes.drop 48 = bytes.drop 32 := by
    rw [show bytes.drop 48 = (bytes.drop 32).drop 16 by rw [List.drop_drop],
      List.take_append_drop]
  have second : (bytes.drop 16).take 16 ++ bytes.drop 32 = bytes.drop 16 := by
    rw [show bytes.drop 32 = (bytes.drop 16).drop 16 by rw [List.drop_drop],
      List.take_append_drop]
  rw [third, second, List.take_append_drop]

theorem zero_bytes {point : FixedBytes 64} (infinite : point.1.all (· == 0) = true) :
    point.1 = List.replicate 64 0 := by
  apply List.eq_replicate_iff.mpr
  refine ⟨point.2, ?_⟩
  intro byte member
  exact eq_of_beq (List.all_eq_true.mp infinite byte member)

theorem g1Limbs_inj {p q : FixedBytes 64} (same : g1Limbs p = g1Limbs q) : p = q := by
  apply Subtype.ext
  obtain ⟨p0, p1, p2, p3⟩ := quarter_length p
  obtain ⟨q0, q1, q2, q3⟩ := quarter_length q
  unfold g1Limbs at same
  by_cases infiniteP : p.1.all (· == 0) = true
  · by_cases infiniteQ : q.1.all (· == 0) = true
    · rw [zero_bytes infiniteP, zero_bytes infiniteQ]
    · rw [if_pos infiniteP, if_neg infiniteQ] at same
      exact absurd (List.cons.inj same).1.symm (limb_ne_sentinel q0)
  · by_cases infiniteQ : q.1.all (· == 0) = true
    · rw [if_neg infiniteP, if_pos infiniteQ] at same
      exact absurd (List.cons.inj same).1 (limb_ne_sentinel p0)
    · rw [if_neg infiniteP, if_neg infiniteQ] at same
      simp only [List.cons.injEq, and_true] at same
      obtain ⟨first, second, third, fourth⟩ := same
      rw [quarters p.1, quarters q.1, limb_inj p0 q0 first, limb_inj p1 q1 second,
        limb_inj p2 q2 third, limb_inj p3 q3 fourth]

theorem g1Limbs_framed : Framed (fun _ : FixedBytes 64 => True) g1Limbs :=
  Framed.ofLength (fun point _ => g1Limbs_length point) fun _ _ _ _ same => g1Limbs_inj same

theorem flatMap_g1Limbs_length (points : List (FixedBytes 64)) :
    (points.flatMap g1Limbs).length = 4 * points.length := by
  induction points with
  | nil => rfl
  | cons point points ih =>
    rw [List.flatMap_cons, List.length_append, ih, g1Limbs_length, List.length_cons, Nat.mul_succ,
      Nat.add_comm]

theorem pointsMessage_framed (tag : ℕ) :
    Framed (fun points : List (FixedBytes 64) => Allocated 64 points) (pointsMessage tag) := by
  have short : ∀ {points : List (FixedBytes 64)}, Allocated 64 points →
      (points.flatMap g1Limbs).length < 2 ^ 250 := by
    intro points held
    rw [flatMap_g1Limbs_length]
    calc 4 * points.length ≤ 64 * points.length := Nat.mul_le_mul_right _ (by decide)
      _ < 2 ^ 63 := held
      _ < 2 ^ 250 := by decide
  intro xs ys rest rest' heldX heldY same
  obtain ⟨limbs, rests⟩ := message_framed tag _ _ rest rest' (short heldX) (short heldY) same
  have lengths := congrArg List.length limbs
  rw [flatMap_g1Limbs_length, flatMap_g1Limbs_length] at lengths
  obtain ⟨points, -⟩ := g1Limbs_framed.flatMap xs ys [] []
    (Nat.eq_of_mul_eq_mul_left (by decide) lengths) (fun _ _ => trivial) (fun _ _ => trivial)
    (by rw [limbs])
  exact ⟨points, rests⟩

end Framing

end Apogee
