import Apogee.Circuit.Wire
import Apogee.Trace.Archive

/-! # The archive's wire form

The three values a file is made of in the variable-length format the artifacts are
stored in. A count here has as many groups as it needs: the format's own lengths stop
at the width of the machine, which no list there outgrows.
-/

namespace Apogee

open Apogee.Math

namespace Postcard

/-- A count of any size. -/
def count : Deserialize ℕ := fun bytes =>
  match bytes with
  | [] => .error ()
  | group :: rest =>
    if group.toNat < 128 then .ok (group.toNat, rest)
    else
      match count rest with
      | .ok (high, rest) => .ok (group.toNat - 128 + 128 * high, rest)
      | .error e => .error e

/-- A list of any length. -/
def many {α : Type} (item : Deserialize α) : Deserialize (List α) := do
  let n ← count
  repeatRead item n

def uint8 : Deserialize UInt8 := convert (fun n => .ok (UInt8.ofNat n)) byte

def uint32 : Deserialize UInt32 := convert (fun n => .ok (UInt32.ofNat n)) u32

def uint64 : Deserialize UInt64 := convert (fun n => .ok (UInt64.ofNat n)) length

end Postcard

namespace Serialize

def count : Writer ℕ := fun n => some (Postcard.varintBytes (n + 1) n)

def many {α : Type} (item : Writer α) : Writer (List α) := fun values =>
  written [count values.length, writeEach item values]

def uint8 : Writer UInt8 := fun n => u8 n.toNat

def uint32 : Writer UInt32 := fun n => u32 n.toNat

def uint64 : Writer UInt64 := fun n => length n.toNat

end Serialize

namespace Postcard

theorem count_varintBytes {fuel n : ℕ} (rest : List UInt8) (enough : n < fuel) :
    count (varintBytes fuel n ++ rest) = .ok (n, rest) := by
  induction fuel generalizing n with
  | zero => exact absurd enough (Nat.not_lt_zero n)
  | succ fuel ih =>
    rw [varintBytes]
    by_cases short : n < 128
    · have low : (UInt8.ofNat n).toNat = n :=
        UInt8.toNat_ofNat_of_lt' (short.trans (by decide))
      rw [if_pos short, List.singleton_append, count, low, if_pos short]
    · have high : n / 128 < fuel := by omega
      have group : (UInt8.ofNat (n % 128 + 128)).toNat = n % 128 + 128 :=
        UInt8.toNat_ofNat_of_lt' (Nat.add_lt_of_lt_sub (Nat.mod_lt n (by decide)))
      have whole : n % 128 + 128 * (n / 128) = n := Nat.mod_add_div n 128
      rw [if_neg short, List.cons_append, count, group, if_neg (Nat.not_lt.mpr (Nat.le_add_left ..)),
        ih high, Nat.add_sub_cancel]
      dsimp only
      rw [whole]

theorem count_restores : Restores count (fun _ => True) Serialize.count := by
  intro n front rest _ wrote
  cases wrote
  exact count_varintBytes rest (Nat.lt_succ_self n)

theorem many_restores {α : Type} {item : Deserialize α} {write : Writer α}
    (restores : Restores item (fun _ => True) write) :
    Restores (many item) (fun _ => True) (Serialize.many write) := by
  intro values bytes rest _ wrote
  obtain ⟨front, counted, back, wroteItems, rfl⟩ := written_pair_eq_some.mp wrote
  rw [many, reader_bind, List.append_assoc]
  exact ⟨values.length, back ++ rest, count_restores _ _ _ trivial counted,
    restores.repeatRead _ _ _ _ ⟨rfl, fun _ _ => trivial⟩ wroteItems⟩

theorem uint8_restores : Restores uint8 (fun _ => True) Serialize.uint8 :=
  Restores.convert UInt8.toNat u8_restores (fun n _ => by rw [UInt8.ofNat_toNat])
    fun n _ => UInt8.toNat_lt n

theorem uint32_restores : Restores uint32 (fun _ => True) Serialize.uint32 :=
  Restores.convert UInt32.toNat u32_restores (fun n _ => by rw [UInt32.ofNat_toNat])
    fun n _ => UInt32.toNat_lt n

theorem uint64_restores : Restores uint64 (fun _ => True) Serialize.uint64 :=
  Restores.convert UInt64.toNat length_restores (fun n _ => by rw [UInt64.ofNat_toNat])
    fun n _ => UInt64.toNat_lt n

theorem many_isSome {α : Type} {write : Writer α} (total : ∀ value, (write value).isSome)
    (values : List α) : (Serialize.many write values).isSome := by
  rw [Serialize.many, written_cons_isSome, written_cons_isSome, writeEach_isSome]
  exact ⟨rfl, fun value _ => total value, rfl⟩

end Postcard

namespace Trace

open Apogee.Postcard (many uint8 uint32 uint64 option many_isSome many_restores uint8_restores
  uint32_restores uint64_restores option_restores)

/-- A codec from a reader and a writer. -/
def Codec.of {α : Type} (read : Deserialize α) (write : Writer α) : Codec α where
  encode value := (write value).getD []
  takeFromBytes bytes := (read bytes).mapError fun _ => "the bytes encode no value"

theorem Codec.of_lawful {α : Type} {read : Deserialize α} {write : Writer α}
    (restores : Restores read (fun _ => True) write) (total : ∀ value, (write value).isSome) :
    (Codec.of read write).Lawful := by
  intro value rest
  obtain ⟨bytes, wrote⟩ := Option.isSome_iff_exists.mp (total value)
  have found := restores value bytes rest trivial wrote
  simp only [Codec.of, wrote, Option.getD_some, found, Except.mapError]

namespace Wire

/-- A phase's entry in a table: its tag, then its content if it has one. -/
def readEntry {α : Type} (item : Deserialize α) : Deserialize (UInt8 × Option α) := do
  let tag ← uint8
  let content ← option item
  pure (tag, content)

def writeEntry {α : Type} (item : Writer α) : Writer (UInt8 × Option α) := fun entry =>
  written [Serialize.uint8 entry.1, Serialize.option item entry.2]

def readQuery : Deserialize QueryColumns := do
  let addr ← many uint32
  let readTs ← many uint64
  let readValue ← many uint32
  let writeValue ← many uint32
  pure ⟨addr, readTs, readValue, writeValue⟩

def writeQuery : Writer QueryColumns := fun q =>
  written [Serialize.many Serialize.uint32 q.addr, Serialize.many Serialize.uint64 q.readTs,
    Serialize.many Serialize.uint32 q.readValue, Serialize.many Serialize.uint32 q.writeValue]

instance : Inhabited QueryColumns := ⟨.empty⟩

def readFamily : Deserialize FamilyTrace := do
  let family ← uint32
  let height ← uint32
  let cycle ← many uint64
  let pc ← many uint32
  let nextPc ← many uint32
  let present ← many uint8
  let queries ← array 8 readQuery
  pure ⟨family, height, cycle, pc, nextPc, present, queries⟩

def writeFamily : Writer FamilyTrace := fun t =>
  written [Serialize.uint32 t.family, Serialize.uint32 t.height,
    Serialize.many Serialize.uint64 t.cycle, Serialize.many Serialize.uint32 t.pc,
    Serialize.many Serialize.uint32 t.nextPc, Serialize.many Serialize.uint8 t.present,
    writeEach writeQuery (List.ofFn t.queries)]

def readDelegation : Deserialize DelegationWire := do
  let family ← uint32
  let height ← uint32
  let cycle ← many uint64
  let base ← many uint32
  let words ← many readQuery
  pure ⟨family, height, cycle, base, words⟩

def writeDelegation : Writer DelegationWire := fun t =>
  written [Serialize.uint32 t.family, Serialize.uint32 t.height,
    Serialize.many Serialize.uint64 t.cycle, Serialize.many Serialize.uint32 t.base,
    Serialize.many writeQuery t.words]

def readEvent : Deserialize EventWire := do
  let tag ← uint8
  let addr ← uint32
  let ts ← uint64
  let readTs ← uint64
  let readValue ← uint32
  let writeValue ← uint32
  pure ⟨tag, addr, ts, readTs, readValue, writeValue⟩

def writeEvent : Writer EventWire := fun e =>
  written [Serialize.uint8 e.tag, Serialize.uint32 e.addr, Serialize.uint64 e.ts,
    Serialize.uint64 e.readTs, Serialize.uint32 e.readValue, Serialize.uint32 e.writeValue]

def readCount : Deserialize (UInt32 × UInt64) := do
  let family ← uint32
  let rows ← uint64
  pure (family, rows)

def writeCount : Writer (UInt32 × UInt64) := fun entry =>
  written [Serialize.uint32 entry.1, Serialize.uint64 entry.2]

def readPostExecution : Deserialize PostExecutionWire := do
  let families ← many readFamily
  let delegations ← many readDelegation
  let events ← many readEvent
  let counts ← many readCount
  let input ← many uint8
  let output ← many uint8
  let advice ← many uint8
  pure ⟨families, delegations, events, counts, input, output, advice⟩

def writePostExecution : Writer PostExecutionWire := fun x =>
  written [Serialize.many writeFamily x.families, Serialize.many writeDelegation x.delegations,
    Serialize.many writeEvent x.events, Serialize.many writeCount x.counts,
    Serialize.many Serialize.uint8 x.input, Serialize.many Serialize.uint8 x.output,
    Serialize.many Serialize.uint8 x.advice]

theorem entry_restores {α : Type} {item : Deserialize α} {write : Writer α}
    (restores : Restores item (fun _ => True) write) :
    Restores (readEntry item) (fun _ => True) (writeEntry write) := by
  have fields : Restores (readEntry item)
      (fun x => True ∧ (∀ inner, x.2 = some inner → True) ∧ True) (writeEntry write) := by
    unfold readEntry writeEntry
    apply Restores.first Prod.fst uint8_restores
    intro tag
    apply Restores.next Prod.snd (option_restores restores)
    intro content
    apply Restores.done
    rintro ⟨_, _⟩ ⟨rfl, rfl⟩
    rfl
  exact fun x front rest _ => fields x front rest ⟨trivial, fun _ _ => trivial, trivial⟩

theorem query_restores : Restores readQuery (fun _ => True) writeQuery := by
  have fields : Restores readQuery (fun _ => True ∧ True ∧ True ∧ True ∧ True) writeQuery := by
    unfold readQuery writeQuery
    apply Restores.first QueryColumns.addr (many_restores uint32_restores)
    intro addr
    apply Restores.next QueryColumns.readTs (many_restores uint64_restores)
    intro readTs
    apply Restores.next QueryColumns.readValue (many_restores uint32_restores)
    intro readValue
    apply Restores.next QueryColumns.writeValue (many_restores uint32_restores)
    intro writeValue
    apply Restores.done
    rintro ⟨_, _, _, _⟩ ⟨⟨⟨rfl, rfl⟩, rfl⟩, rfl⟩
    rfl
  exact fun x front rest _ => fields x front rest ⟨trivial, trivial, trivial, trivial, trivial⟩

theorem family_restores : Restores readFamily (fun _ => True) writeFamily := by
  have fields : Restores readFamily (fun _ => True ∧ True ∧ True ∧ True ∧ True ∧ True ∧
      (∀ _ : Fin 8, True) ∧ True) writeFamily := by
    unfold readFamily writeFamily
    apply Restores.first FamilyTrace.family uint32_restores
    intro family
    apply Restores.next FamilyTrace.height uint32_restores
    intro height
    apply Restores.next FamilyTrace.cycle (many_restores uint64_restores)
    intro cycle
    apply Restores.next FamilyTrace.pc (many_restores uint32_restores)
    intro pc
    apply Restores.next FamilyTrace.nextPc (many_restores uint32_restores)
    intro nextPc
    apply Restores.next FamilyTrace.present (many_restores uint8_restores)
    intro present
    apply Restores.next FamilyTrace.queries (query_restores.array 8)
    intro queries
    apply Restores.done
    rintro ⟨_, _, _, _, _, _, _⟩ ⟨⟨⟨⟨⟨⟨rfl, rfl⟩, rfl⟩, rfl⟩, rfl⟩, rfl⟩, rfl⟩
    rfl
  exact fun x front rest _ => fields x front rest
    ⟨trivial, trivial, trivial, trivial, trivial, trivial, fun _ => trivial, trivial⟩

theorem delegation_restores : Restores readDelegation (fun _ => True) writeDelegation := by
  have fields : Restores readDelegation (fun _ => True ∧ True ∧ True ∧ True ∧ True ∧ True)
      writeDelegation := by
    unfold readDelegation writeDelegation
    apply Restores.first DelegationWire.family uint32_restores
    intro family
    apply Restores.next DelegationWire.height uint32_restores
    intro height
    apply Restores.next DelegationWire.cycle (many_restores uint64_restores)
    intro cycle
    apply Restores.next DelegationWire.base (many_restores uint32_restores)
    intro base
    apply Restores.next DelegationWire.words (many_restores query_restores)
    intro words
    apply Restores.done
    rintro ⟨_, _, _, _, _⟩ ⟨⟨⟨⟨rfl, rfl⟩, rfl⟩, rfl⟩, rfl⟩
    rfl
  exact fun x front rest _ => fields x front rest
    ⟨trivial, trivial, trivial, trivial, trivial, trivial⟩

theorem event_restores : Restores readEvent (fun _ => True) writeEvent := by
  have fields : Restores readEvent (fun _ => True ∧ True ∧ True ∧ True ∧ True ∧ True ∧ True)
      writeEvent := by
    unfold readEvent writeEvent
    apply Restores.first EventWire.tag uint8_restores
    intro tag
    apply Restores.next EventWire.addr uint32_restores
    intro addr
    apply Restores.next EventWire.ts uint64_restores
    intro ts
    apply Restores.next EventWire.readTs uint64_restores
    intro readTs
    apply Restores.next EventWire.readValue uint32_restores
    intro readValue
    apply Restores.next EventWire.writeValue uint32_restores
    intro writeValue
    apply Restores.done
    rintro ⟨_, _, _, _, _, _⟩ ⟨⟨⟨⟨⟨rfl, rfl⟩, rfl⟩, rfl⟩, rfl⟩, rfl⟩
    rfl
  exact fun x front rest _ => fields x front rest
    ⟨trivial, trivial, trivial, trivial, trivial, trivial, trivial⟩

theorem count_restores : Restores readCount (fun _ => True) writeCount := by
  have fields : Restores readCount (fun _ => True ∧ True ∧ True) writeCount := by
    unfold readCount writeCount
    apply Restores.first Prod.fst uint32_restores
    intro family
    apply Restores.next Prod.snd uint64_restores
    intro rows
    apply Restores.done
    rintro ⟨_, _⟩ ⟨rfl, rfl⟩
    rfl
  exact fun x front rest _ => fields x front rest ⟨trivial, trivial, trivial⟩

theorem postExecution_restores : Restores readPostExecution (fun _ => True) writePostExecution := by
  have bytes := many_restores uint8_restores
  have fields : Restores readPostExecution (fun _ => True ∧ True ∧ True ∧ True ∧ True ∧ True ∧
      True ∧ True) writePostExecution := by
    unfold readPostExecution writePostExecution
    apply Restores.first PostExecutionWire.families (many_restores family_restores)
    intro families
    apply Restores.next PostExecutionWire.delegations (many_restores delegation_restores)
    intro delegations
    apply Restores.next PostExecutionWire.events (many_restores event_restores)
    intro events
    apply Restores.next PostExecutionWire.counts (many_restores count_restores)
    intro counts
    apply Restores.next PostExecutionWire.input bytes
    intro input
    apply Restores.next PostExecutionWire.output bytes
    intro output
    apply Restores.next PostExecutionWire.advice bytes
    intro advice
    apply Restores.done
    rintro ⟨_, _, _, _, _, _, _⟩ ⟨⟨⟨⟨⟨⟨rfl, rfl⟩, rfl⟩, rfl⟩, rfl⟩, rfl⟩, rfl⟩
    rfl
  exact fun x front rest _ => fields x front rest
    ⟨trivial, trivial, trivial, trivial, trivial, trivial, trivial, trivial⟩

end Wire

namespace Postcard

/-- The serializer. -/
def wire : Postcard where
  sections := .of (array 5 (Wire.readEntry (many uint8))) fun table =>
    writeEach (Wire.writeEntry (Serialize.many Serialize.uint8)) (List.ofFn table)
  timings := .of (array 5 (Wire.readEntry uint64)) fun table =>
    writeEach (Wire.writeEntry Serialize.uint64) (List.ofFn table)
  postExecution := .of Wire.readPostExecution Wire.writePostExecution

theorem writeEntry_isSome {α : Type} {write : Writer α} (total : ∀ value, (write value).isSome)
    (entry : UInt8 × Option α) : (Wire.writeEntry write entry).isSome := by
  have content : (Serialize.option write entry.2).isSome := by
    cases entry.2 with
    | none => rfl
    | some value =>
      rw [Serialize.option, written_cons_isSome, written_singleton]
      exact ⟨rfl, total value⟩
  rw [Wire.writeEntry, written_cons_isSome, written_singleton]
  exact ⟨rfl, content⟩

theorem wire_lawful : wire.Lawful := by
  have byte : ∀ n, (Serialize.uint8 n).isSome := fun _ => rfl
  have word : ∀ n, (Serialize.uint32 n).isSome := fun _ => rfl
  have long : ∀ n, (Serialize.uint64 n).isSome := fun _ => rfl
  have query : ∀ q, (Wire.writeQuery q).isSome := by
    intro q
    simp only [Wire.writeQuery, written_cons_isSome, written_nil_isSome, many_isSome word,
      many_isSome long, and_self]
  have queries : ∀ q : Fin 8 → QueryColumns, (writeEach Wire.writeQuery (List.ofFn q)).isSome :=
    fun q => writeEach_isSome.mpr fun columns _ => query columns
  have family : ∀ t, (Wire.writeFamily t).isSome := by
    intro t
    simp only [Wire.writeFamily, written_cons_isSome, written_nil_isSome, many_isSome word,
      many_isSome long, many_isSome byte, word, queries, and_self]
  have delegation : ∀ t, (Wire.writeDelegation t).isSome := by
    intro t
    simp only [Wire.writeDelegation, written_cons_isSome, written_nil_isSome, many_isSome word,
      many_isSome long, many_isSome query, word, and_self]
  have post : ∀ x, (Wire.writePostExecution x).isSome := by
    intro x
    have event : ∀ e, (Wire.writeEvent e).isSome := fun _ => rfl
    have entry : ∀ e, (Wire.writeCount e).isSome := fun _ => rfl
    simp only [Wire.writePostExecution, written_cons_isSome, written_nil_isSome,
      many_isSome family, many_isSome delegation, many_isSome event, many_isSome entry,
      many_isSome byte, and_self]
  refine ⟨Codec.of_lawful ?_ ?_, Codec.of_lawful ?_ ?_,
    Codec.of_lawful Wire.postExecution_restores post⟩
  · have entries := (Wire.entry_restores (many_restores uint8_restores)).array 5
    exact fun x front rest _ => entries x front rest fun _ => trivial
  · exact fun table => writeEach_isSome.mpr fun entry _ =>
    writeEntry_isSome (many_isSome byte) entry
  · have entries := (Wire.entry_restores uint64_restores).array 5
    exact fun x front rest _ => entries x front rest fun _ => trivial
  · exact fun table => writeEach_isSome.mpr fun entry _ => writeEntry_isSome long entry

end Postcard

end Trace

end Apogee
