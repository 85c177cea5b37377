import Apogee.Trace.SelfCheck

/-! # What recording builds

A log that recording builds from nothing, query by query, keeps the rules: every
assertion is one of them. Its self-check can still refuse it for what the log cannot
see: an address' initial value, and two answers in one slot.
-/

namespace Apogee.Trace

open Math

/-- One access of the machine: a query, or one of a field cell. -/
inductive Access
  | query (space : Space) (addr : UInt32) (ts : UInt64) (readValue writeValue : UInt32)
  | field (cell : UInt32) (ts : UInt64) (read write : Fr)

def MemoryEventLog.perform (log : MemoryEventLog) : Access → Option MemoryEventLog
  | .query space addr ts readValue writeValue =>
    (log.record space addr ts readValue writeValue).map Prod.snd
  | .field cell ts read write => (log.recordField cell ts read write).map Prod.snd

section Reads

variable {before : UInt64 × UInt32} {queries : List MemoryEvent}

theorem readsLast_append {e : MemoryEvent} :
    ReadsLast MemoryEvent.read MemoryEvent.write before (queries ++ [e]) ↔
      ReadsLast MemoryEvent.read MemoryEvent.write before queries ∧
        e.read = lastWrite MemoryEvent.write before queries := by
  induction queries generalizing before with
  | nil => simp [ReadsLast, lastWrite]
  | cons query queries ih =>
    rw [List.cons_append, ReadsLast, ReadsLast, ih, lastWrite_cons, and_assoc]

end Reads

/-- The last access of an address its space holds, once an event is remembered. -/
theorem LastAccess.last_remember {state : LastAccess} {e : MemoryEvent} {address : Space × UInt32}
    (held : e.space.holds e.addr = true) (holds : address.1.holds address.2 = true)
    (chained : address.1.chains = true) : (state.remember e).last address.1 address.2 =
      if e.address = address then some e.write else state.last address.1 address.2 := by
  obtain ⟨space, addr⟩ := address
  cases e with
  | mk space' addr' ts readTs readValue writeValue =>
    simp only [MemoryEvent.address, MemoryEvent.write, Prod.mk.injEq]
    by_cases same : space' = space
    · subst same
      simp only [true_and]
      cases space' with
      | reg =>
        rw [Space.holds, decide_eq_true_eq] at held holds
        simp only [remember, last, register, dif_pos held, dif_pos holds, Option.bind_eq_bind,
          Option.bind_some, Function.update_apply, Fin.mk.injEq, UInt32.toNat_inj,
          eq_comm (a := addr)]
      | ram => simp only [remember, last, Table.get_insert, eq_comm (a := addr)]
      | pc =>
        rw [Space.holds, decide_eq_true_eq] at held holds
        rw [if_pos (UInt32.toNat_inj.mp (held.trans holds.symm))]
        rfl
      | _ => cases chained
    · rw [if_neg fun both => same both.1]
      cases space' with
      | reg =>
        simp only [remember]
        cases register addr' <;> cases space <;> first | rfl | exact absurd rfl same
      | _ => cases space <;> first | rfl | exact absurd rfl same

/-- What every recording keeps. -/
structure Recorded (log : MemoryEventLog) : Prop where
  held : ∀ e ∈ log.events,
    e.space.holds e.addr = true ∧ e.ts.toNat < 2 ^ Clock.tsBits ∧ e.readTs < e.ts
  ordered : log.events.Pairwise fun e other => e.ts ≤ other.ts
  late : ∀ e ∈ log.events, ∃ last, log.state.lastTs = some last ∧ e.ts ≤ last
  chained : ∀ address : Space × UInt32, address.1.chains = true →
    ∃ init, ReadsLast MemoryEvent.read MemoryEvent.write (0, init) (queriesAt log.events address) ∧
      (address.1.holds address.2 = true → log.state.last address.1 address.2 =
        (queriesAt log.events address).getLast?.map MemoryEvent.write)
  answers : ∀ e ∈ log.events, e.space.chains = false → e.read = (0, 0)

namespace Recorded

variable {log after : MemoryEventLog}

theorem new : Recorded .new := by
  refine ⟨nofun, .nil, nofun, fun address chained => ⟨0, trivial, fun holds => ?_⟩, nofun⟩
  obtain ⟨space, addr⟩ := address
  cases space with
  | reg =>
    rw [Space.holds, decide_eq_true_eq] at holds
    simp only [LastAccess.last, LastAccess.register, dif_pos holds]
    rfl
  | _ => rfl

/-- A query that the assertions let through keeps the log recorded. -/
theorem record (recorded : Recorded log) {space : Space} {addr : UInt32} {ts : UInt64}
    {readValue writeValue : UInt32} {e : MemoryEvent}
    (ran : log.record space addr ts readValue writeValue = some (e, after)) : Recorded after := by
  unfold MemoryEventLog.record at ran
  split at ran
  · cases ran
  rename_i event state found
  cases ran
  obtain ⟨⟨holds, clock, forward, value, gap⟩, same⟩ := Option.ite_none_right_eq_some.mp found
  cases same
  set e : MemoryEvent :=
    ⟨space, addr, ts, (log.state.lastRead space addr readValue).1, readValue, writeValue⟩
  have read : e.read = log.state.lastRead space addr readValue := Prod.ext rfl value.symm
  have past : ∀ earlier ∈ log.events, earlier.ts ≤ ts := by
    intro earlier member
    obtain ⟨last, found, le⟩ := recorded.late earlier member
    rw [found] at forward
    exact UInt64.le_trans le (of_decide_eq_true forward)
  refine ⟨List.forall_mem_append.mpr ⟨recorded.held, by simpa using ⟨holds, clock, gap⟩⟩,
    List.pairwise_append.mpr ⟨recorded.ordered, List.pairwise_singleton _ _, fun earlier member =>
      List.forall_mem_singleton.mpr (past earlier member)⟩,
    List.forall_mem_append.mpr ⟨fun earlier member => ⟨ts, rfl, past earlier member⟩,
      List.forall_mem_singleton.mpr ⟨ts, rfl, UInt64.le_refl _⟩⟩,
    ?_, List.forall_mem_append.mpr ⟨recorded.answers, List.forall_mem_singleton.mpr ?_⟩⟩
  · intro address chained
    obtain ⟨init, reads, last⟩ := recorded.chained address chained
    rw [queriesAt_append]
    by_cases here : e.address = address
    · subst here
      have before : log.state.last space addr = _ := last holds
      have chains : space.chains = true := chained
      rw [if_pos rfl]
      have kept : (log.state.remember e).last space addr =
          ((queriesAt log.events e.address ++ [e]).getLast?.map MemoryEvent.write) := by
        rw [List.getLast?_concat]
        exact (LastAccess.last_remember holds holds chained).trans (if_pos rfl)
      rcases List.eq_nil_or_concat (queriesAt log.events e.address) with
        none_ | ⟨front, query, some_⟩
      · refine ⟨readValue, ?_, fun _ => kept⟩
        rw [none_] at before ⊢
        refine ⟨read.trans ?_, trivial⟩
        rw [MemoryState.lastRead, if_pos chains, before]
        rfl
      · refine ⟨init, readsLast_append.mpr ⟨reads, read.trans ?_⟩, fun _ => kept⟩
        rw [MemoryState.lastRead, if_pos chains, before, some_, List.concat_eq_append,
          List.getLast?_concat, lastWrite, List.foldl_concat]
        rfl
    · rw [if_neg here, List.append_nil]
      refine ⟨init, reads, fun holds' => ?_⟩
      rw [LastAccess.last_remember holds holds' chained, if_neg here]
      exact last holds'
  · intro unchained
    have closed : space.chains = false := unchained
    rw [read, MemoryState.lastRead, closed]
    rfl

/-- An access of a field cell is no event. -/
theorem recordField (recorded : Recorded log) {cell : UInt32} {ts readTs : UInt64} {read write : Fr}
    (ran : log.recordField cell ts read write = some (readTs, after)) : Recorded after := by
  unfold MemoryEventLog.recordField at ran
  split at ran
  · cases ran
  rename_i stamp state found
  cases ran
  obtain ⟨-, same⟩ := Option.ite_none_right_eq_some.mp found
  cases same
  exact ⟨recorded.held, recorded.ordered, recorded.late, recorded.chained, recorded.answers⟩

end Recorded

end Apogee.Trace
