import Apogee.Emulator.Cells
import Apogee.Math.Passes
import Apogee.Soundness.FieldIo
import Apogee.Soundness.FrOp

/-! # The field calls and their rows

A row carries a call when its frame words are the call's and each of its accesses
is the one the executor reports. A carried call satisfies the circuit's relation.
-/

namespace Apogee

open Alu Delegation Emulator

/-- A row's access is the one a call reports; an access the call does not make
reads zero throughout. -/
def Carries (row : Row) (access : Access) : Option Extra → Prop
  | none => row access.mask = 0 ∧ row access.read = 0 ∧ row access.write = 0
  | some (.cell cell delta old new) => row access.mask = 1 ∧ access.delta = delta ∧
      row access.addr + (access.offset : Fr) = wordFr cell ∧ row access.read = old ∧
      row access.write = new
  | some (.word addr old new) => row access.mask = 1 ∧ access.delta = FieldIo.dataDelta ∧
      row access.addr + (access.offset : Fr) = wordFr addr ∧ row access.read = wordFr old ∧
      row access.write = wordFr new

/-- A row carries a call: its frame words, and its accesses one by one. -/
structure CarriesCall (row : Row) (frame : List Word) (accesses : List Access)
    (extras : List (Option Extra)) : Prop where
  words : ∀ j < frame.length, row (word j wordReadValue) = wordFr (frame.getD j 0)
  accesses : List.Forall₂ (Carries row) accesses extras

namespace FrOp

variable {row : Row} {frame : List Word} {machine after : Machine} {pc : Word}
  {extras : List (Option Extra)}

/-- The low byte of an element and what is left of it. -/
private theorem split_lowByte (a : Fr) : a = (Machine.lowByte a : Fr) + ((2 ^ digitBits : ℕ) : Fr) *
      ((a - (Machine.lowByte a : Fr)) * ((2 ^ digitBits : ℕ) : Fr)⁻¹) := by
  have unit : ((2 ^ digitBits : ℕ) : Fr) ≠ 0 :=
    fr_natCast_ne_zero (by norm_num [digitBits]) (by norm_num [digitBits])
  rw [mul_comm, mul_assoc, inv_mul_cancel₀ unit]
  ring

/-- What a carried operation that leaves `b` as it is says of the row. -/
private theorem finished {readsA readsB : Bool} {new : Option Fr}
    (carried : List.Forall₂ (Carries row) accesses (machine.finishOp frame readsA readsB new).2) :
    row aLive = bitFr readsA ∧ row bLive = bitFr readsB ∧ row dLive = bitFr new.isSome ∧
      (readsA = true → row a = machine.field (frame.getD aWord 0)) ∧
      (readsB = true → row b = machine.field (frame.getD bWord 0)) ∧ row bNew = row b ∧
      ∀ v, new = some v → row d = machine.field (frame.getD dWord 0) ∧ row dNew = v := by
  simp only [accesses, Machine.finishOp, List.forall₂_cons, List.forall₂_nil_left_iff,
    and_true] at carried
  obtain ⟨aCarried, bCarried, dCarried⟩ := carried
  refine ⟨?_, ?_, ?_, ?_, ?_, ?_, ?_⟩
  · cases readsA
    · exact aCarried.1
    · exact aCarried.1
  · cases readsB
    · exact bCarried.1
    · exact bCarried.1
  · cases new
    · exact dCarried.1
    · exact dCarried.1
  · intro reads
    rw [reads] at aCarried
    exact aCarried.2.2.2.1
  · intro reads
    rw [reads] at bCarried
    exact bCarried.2.2.2.1
  · cases readsB
    · exact bCarried.2.2.trans bCarried.2.1.symm
    · exact bCarried.2.2.2.2.trans bCarried.2.2.2.1.symm
  · intro v isNew
    rw [isNew] at dCarried
    exact dCarried.2.2.2

/-- A field operation's call satisfies the row's relation. -/
theorem computes_of_call (called : machine.frOp pc frame = .ok (after, extras))
    (whole : frame.length = frameWords) (carried : CarriesCall row frame accesses extras) :
    Computes row := by
  obtain ⟨words, each⟩ := carried
  have named : row (FrOp.frame opWord) = wordFr (frame.getD opWord 0) :=
    words opWord (by rw [whole]; norm_num [opWord, frameWords])
  have last : row (FrOp.frame bWord) = wordFr (frame.getD bWord 0) :=
    words bWord (by rw [whole]; norm_num [bWord, frameWords])
  rw [wordFr] at named last
  simp only [Machine.frOp] at called
  split_ifs at called with isMul isAdd isSub isMac isInv isEq same isImm isShl isDigit
  all_goals
    have isExtras : _ = extras := congrArg Prod.snd (Except.ok.inj called)
    rw [← isExtras] at each
  · obtain ⟨aEq, bEq, dEq, aIs, bIs, kept, dIs⟩ := finished each
    refine ⟨.mul, by rw [named, isMul]; rfl, aEq, bEq, dEq, ?_, fun _ => kept⟩
    rw [Op.Relates, (dIs _ rfl).2, aIs rfl, bIs rfl]
  · obtain ⟨aEq, bEq, dEq, aIs, bIs, kept, dIs⟩ := finished each
    refine ⟨.add, by rw [named, isAdd]; rfl, aEq, bEq, dEq, ?_, fun _ => kept⟩
    rw [Op.Relates, (dIs _ rfl).2, aIs rfl, bIs rfl]
  · obtain ⟨aEq, bEq, dEq, aIs, bIs, kept, dIs⟩ := finished each
    refine ⟨.sub, by rw [named, isSub]; rfl, aEq, bEq, dEq, ?_, fun _ => kept⟩
    rw [Op.Relates, (dIs _ rfl).2, aIs rfl, bIs rfl]
  · obtain ⟨aEq, bEq, dEq, aIs, bIs, kept, dIs⟩ := finished each
    refine ⟨.mac, by rw [named, isMac]; rfl, aEq, bEq, dEq, ?_, fun _ => kept⟩
    rw [Op.Relates, (dIs _ rfl).2, (dIs _ rfl).1, aIs rfl, bIs rfl]
  · obtain ⟨aEq, bEq, dEq, aIs, bIs, kept, dIs⟩ := finished each
    refine ⟨.inv, by rw [named, isInv]; rfl, aEq, bEq, dEq, ?_, fun _ => kept⟩
    rw [Op.Relates, (dIs _ rfl).2, aIs rfl, Machine.inverseOrZero]
  · obtain ⟨aEq, bEq, dEq, aIs, bIs, kept, -⟩ := finished each
    refine ⟨.eq, by rw [named, isEq]; rfl, aEq, bEq, dEq, ?_, fun _ => kept⟩
    rw [Op.Relates, aIs rfl, bIs rfl, same]
  · obtain ⟨aEq, bEq, dEq, aIs, bIs, kept, dIs⟩ := finished each
    refine ⟨.imm, by rw [named, isImm]; rfl, aEq, bEq, dEq, ?_, fun _ => kept⟩
    rw [Op.Relates, (dIs _ rfl).2, last]
  · obtain ⟨aEq, bEq, dEq, aIs, bIs, kept, dIs⟩ := finished each
    refine ⟨.shl, by rw [named, isShl]; rfl, aEq, bEq, dEq, ?_, fun _ => kept⟩
    rw [Op.Relates, (dIs _ rfl).2, aIs rfl, last]
  · simp only [accesses, Machine.digitOp, List.forall₂_cons, List.forall₂_nil_left_iff,
      and_true] at each
    obtain ⟨aCarried, bCarried, dCarried⟩ := each
    refine ⟨.digit, by rw [named, isDigit]; rfl, aCarried.1, bCarried.1, dCarried.1, ?_,
      fun other => absurd rfl other⟩
    refine ⟨Machine.lowByte (machine.field (frame.getD aWord 0)), ?_, dCarried.2.2.2.2, ?_⟩
    · exact Nat.mod_lt _ (by norm_num)
    · have aIs : row a = machine.field (frame.getD aWord 0) := aCarried.2.2.2.1
      have dIs : row dNew = _ := dCarried.2.2.2.2
      have bIs : row bNew = _ := bCarried.2.2.2.2
      rw [aIs, dIs, bIs]
      exact split_lowByte _

end FrOp

namespace FieldIo

variable {row : Row} {frame : List Word} {machine after : Machine} {pc : Word}
  {extras : List (Option Extra)}

/-- The words' value is their positional value. -/
theorem packWords_eq (words : List Word) :
    Machine.packWords words = ((Nat.ofDigits (2 ^ 32) (words.map BitVec.toNat) : ℕ) : Fr) := by
  rw [Machine.packWords, List.foldl_reverse]
  induction words with
  | nil => simp
  | cons word words ih =>
    rw [List.foldr_cons, ih, List.map_cons, Nat.ofDigits_cons]
    push_cast
    ring

/-- A row's words' value is their positional value. -/
theorem packedValue_eq {x : ℕ → PolyAddress} {words : List Word} (whole : words.length = dataWords)
    (each : ∀ k < dataWords, row (x k) = wordFr (words.getD k 0)) :
    packedValue row x = ((Nat.ofDigits (2 ^ 32) (words.map BitVec.toNat) : ℕ) : Fr) := by
  have cast : ((2 ^ 32 : ℕ) : Fr) = 2 ^ 32 := by norm_num
  rw [Nat.coe_ofDigits, Math.ofDigits_eq_sum, List.length_map, whole, packedValue]
  refine congrArg List.sum (List.map_congr_left fun k inside => ?_)
  rw [each k (List.mem_range.mp inside), wordFr, cast, ← pow_mul, List.getD_eq_getElem?_getD,
    List.getD_eq_getElem?_getD, List.getElem?_map]
  cases words[k]? <;> simp

/-- The words of an element's canonical encoding have its value. -/
theorem limbWords_value (value : Fr) :
    (Nat.ofDigits (2 ^ 32) (((List.range dataWords).map (Machine.limbWord value)).map
      BitVec.toNat) : ℕ) = value.val := by
  have limbs : ((List.range dataWords).map (Machine.limbWord value)).map BitVec.toNat =
      Math.limbs (2 ^ 32) dataWords value.val := by
    refine List.ext_getElem (by simp) fun k inside other => ?_
    rw [List.length_map, List.length_map, List.length_range] at inside
    have limb := @Math.getD_limbs (2 ^ 32) dataWords value.val k inside
    rw [List.getD_eq_getElem _ _ other] at limb
    rw [limb, ← pow_mul]
    simp [Machine.limbWord]
  rw [limbs, Math.ofDigits_limbs_of_lt]
  refine lt_trans (ZMod.val_lt value) ?_
  norm_num [frModulus, dataWords]

/-- The accesses a move reports, its data words' and its cell's. -/
private theorem carried_move {addrs written : List Word} {cell : Word} {old new : Fr}
    (addrsWhole : addrs.length = dataWords) (writtenWhole : written.length = dataWords)
    (carried : List.Forall₂ (Carries row) accesses
      ((addrs.zip ((addrs.map machine.ram).zip written)).map (fun entry =>
          some (Extra.word entry.1 entry.2.1 entry.2.2)) ++
        [some (Extra.cell cell cellDelta old new)])) :
    (∀ k < dataWords, row (dataRead k) = wordFr ((addrs.map machine.ram).getD k 0) ∧
      row (dataWrite k) = wordFr (written.getD k 0)) ∧
      row cellOld = old ∧ row cellNew = new := by
  constructor
  · intro k inside
    have place : accesses[k]? = some (dataAccess k) := by
      rw [accesses, List.getElem?_append_left (by simpa using inside), List.getElem?_map,
        List.getElem?_range inside, Option.map_some]
    obtain ⟨extra, found, here⟩ := Math.forall₂_getElem? carried place
    obtain ⟨addr, addrAt⟩ : ∃ addr, addrs[k]? = some addr :=
      ⟨_, List.getElem?_eq_getElem (by omega)⟩
    obtain ⟨value, valueAt⟩ : ∃ value, written[k]? = some value :=
      ⟨_, List.getElem?_eq_getElem (by omega)⟩
    have inner : ((addrs.map machine.ram).zip written)[k]? = some (machine.ram addr, value) :=
      List.getElem?_zip_eq_some.mpr ⟨by simp [addrAt], valueAt⟩
    have outer : (addrs.zip ((addrs.map machine.ram).zip written))[k]? =
        some (addr, machine.ram addr, value) :=
      List.getElem?_zip_eq_some.mpr ⟨addrAt, inner⟩
    rw [List.getElem?_append_left (by simp [addrsWhole, writtenWhole, inside]), List.getElem?_map,
      outer] at found
    rw [← Option.some.inj found] at here
    simp only [List.getD_eq_getElem?_getD, List.getElem?_map, addrAt, valueAt]
    exact here.2.2.2
  · have place : accesses[dataWords]? = some cellAccess := rfl
    obtain ⟨extra, found, here⟩ := Math.forall₂_getElem? carried place
    rw [List.getElem?_append_right (by simp [addrsWhole, writtenWhole])] at found
    simp [addrsWhole, writtenWhole] at found
    rw [← found] at here
    exact ⟨here.2.2.2.1, here.2.2.2.2⟩

/-- A move's call satisfies the row's relation. -/
theorem computes_of_call (called : machine.fieldIo pc frame = .ok (after, extras))
    (whole : frame.length = frameWords) (carried : CarriesCall row frame accesses extras) :
    Computes row := by
  obtain ⟨words, each⟩ := carried
  have named : row (FieldIo.frame opWord) = wordFr (frame.getD opWord 0) :=
    words opWord (by rw [whole]; norm_num [opWord, frameWords])
  rw [wordFr] at named
  simp only [Machine.fieldIo] at called
  cases found : machine.dataAddrs pc (frame.getD ptrWord 0) with
  | error reason =>
    rw [found] at called
    cases called
  | ok addrs =>
    rw [found] at called
    simp only [bind, Except.bind, pure, Except.pure] at called
    have addrsWhole : addrs.length = dataWords := by
      have each := (Math.mapM_ok found).length_eq
      rw [List.length_range] at each
      exact each.symm
    have unique (move : Move) (namesIt : row (FieldIo.frame opWord) = ((move.code : ℕ) : Fr))
        (relates : move.Relates row) : Computes row :=
      ⟨move, ⟨namesIt, relates⟩, fun other othersName =>
        code_inj (othersName.1.symm.trans namesIt)⟩
    split_ifs at called with isImport isExport
    all_goals
      have isExtras : _ = extras := congrArg Prod.snd (Except.ok.inj called)
      rw [← isExtras] at each
    · obtain ⟨data, -, cellEq⟩ := carried_move addrsWhole (by simpa using addrsWhole) each
      refine unique .imports (by rw [named, isImport]; rfl) ⟨?_, fun k inside => ?_⟩
      · rw [cellEq, packWords_eq, packedValue_eq (by simpa using addrsWhole) fun k inside =>
        (data k inside).1]
      · rw [(data k inside).1, (data k inside).2]
    · obtain ⟨data, oldEq, cellEq⟩ := carried_move addrsWhole (by simp) each
      refine unique .exports (by rw [named, isExport]; rfl) ⟨?_, fun k inside => ?_, ?_⟩
      · rw [cellEq, oldEq]
      · exact ⟨_, BitVec.isLt _, (data k inside).2⟩
      · rw [packedValue_eq (by simp) fun k inside => (data k inside).2, limbWords_value, oldEq,
          ZMod.natCast_zmod_val]

end FieldIo

/-- **The field calls' circuits are the executor.** A live field-operation row has
witness columns exactly when its frame is a frame written back unchanged, the
accesses its masks switch on read the past, and it computes the operation its
first word names with exactly that operation's accesses; a live import or export
row likewise for its one move. Every call the executor accepts satisfies those
relations on the row that carries it. -/
theorem field_calls_exact {challenges : ExternalChallenges} {decoded : List (List Fr)}
    {opRow moveRow : Row} (opLive : opRow live = 1) (moveLive : moveRow live = 1) :
    ((∃ columns, Satisfies challenges decoded (opRow.withWitness columns) FrOp.body) ↔
        FrOp.RowOk opRow) ∧
      ((∃ columns, Satisfies challenges decoded (moveRow.withWitness columns) FieldIo.body) ↔
        FieldIo.RowOk moveRow) ∧
      (∀ (machine after : Machine) (pc : Word) (frame : List Word) (extras : List (Option Extra))
        (row : Row), machine.frOp pc frame = .ok (after, extras) →
        frame.length = FrOp.frameWords → CarriesCall row frame FrOp.accesses extras →
        FrOp.Computes row) ∧
      ∀ (machine after : Machine) (pc : Word) (frame : List Word) (extras : List (Option Extra))
        (row : Row), machine.fieldIo pc frame = .ok (after, extras) →
        frame.length = FieldIo.frameWords → CarriesCall row frame FieldIo.accesses extras →
        FieldIo.Computes row :=
  ⟨FrOp.satisfies_iff opLive, FieldIo.satisfies_iff moveLive,
    fun _ _ _ _ _ _ called whole carried => FrOp.computes_of_call called whole carried,
    fun _ _ _ _ _ _ called whole carried => FieldIo.computes_of_call called whole carried⟩

/-- The row of `3·5 = 15`, over a frame at the start of guest memory. -/
def product : Row := Row.ofColumns [10, 1, 65536, 0, 65536, 5, 1, 1, 65540, 5, 7, 7, 65544, 5, 5, 5,
  65548, 5, 6, 6, 1, 5, 3, 1, 5, 5, 5, 1, 5, 0, 15] [] []

/-- The row of the import of the words `1, 0, …, 0`, over a frame there. -/
def imported : Row := Row.ofColumns [10, 1, 65536, 0, 65536, 5, 1, 1, 65540, 5, 7, 7, 65544, 5,
  65600, 65600, 5, 1, 1, 5, 0, 0, 5, 0, 0, 5, 0, 0, 5, 0, 0, 5, 0, 0, 5, 0, 0, 5, 0, 0,
  5, 0, 1] [] []

/-- The product's row and the import's have witness columns. -/
theorem field_calls_exact_rows :
    (∃ columns, Satisfies ExternalChallenges.empty [] (product.withWitness columns) FrOp.body) ∧
      ∃ columns, Satisfies ExternalChallenges.empty [] (imported.withWitness columns)
        FieldIo.body := by
  have rows := @field_calls_exact ExternalChallenges.empty [] product imported
    (by decide +kernel) (by decide +kernel)
  have gap34 : 34 < 2 ^ Clock.tsBits := by norm_num [Clock.tsBits]
  have gap35 : 35 < 2 ^ Clock.tsBits := by norm_num [Clock.tsBits]
  have gap36 : 36 < 2 ^ Clock.tsBits := by norm_num [Clock.tsBits]
  refine ⟨rows.1.mpr ⟨⟨?_, ?_, ?_, ?_⟩, ?_, ?_, ?_⟩, rows.2.1.mpr ⟨⟨?_, ?_, ?_, ?_⟩, ?_, ?_, ?_⟩⟩
  · decide +kernel
  · have gaps : ∀ j < FrOp.frameWords, (Clock.tsStep : Fr) * product cycle + (frameDelta : Fr) =
        product (word j wordReadTs) + 1 + ((34 : ℕ) : Fr) := by decide +kernel
    exact fun j inside => ⟨34, gap34, gaps j inside⟩
  · exact ⟨0, by norm_num, by decide +kernel⟩
  · exact ⟨2 ^ 31 - 65552, by norm_num [baseRoomBits], by decide +kernel⟩
  · decide +kernel
  · refine FrOp.forall_accesses.mpr ⟨fun _ => ⟨34, gap34, ?_⟩, fun _ => ⟨35, gap35, ?_⟩,
      fun _ => ⟨36, gap36, ?_⟩⟩
    all_goals decide +kernel
  · have multiplies : product FrOp.dNew = product FrOp.a * product FrOp.b := by decide +kernel
    refine ⟨.mul, ?_, ?_, ?_, ?_, multiplies, fun _ => ?_⟩
    all_goals decide +kernel
  · decide +kernel
  · have gaps : ∀ j < FieldIo.frameWords, (Clock.tsStep : Fr) * imported cycle +
        (frameDelta : Fr) = imported (word j wordReadTs) + 1 + ((34 : ℕ) : Fr) := by decide +kernel
    exact fun j inside => ⟨34, gap34, gaps j inside⟩
  · exact ⟨0, by norm_num, by decide +kernel⟩
  · exact ⟨2 ^ 31 - 65548, by norm_num [baseRoomBits], by decide +kernel⟩
  · decide +kernel
  · have gaps : ∀ k < FieldIo.dataWords, (Clock.tsStep : Fr) * imported cycle +
        (FieldIo.dataDelta : Fr) = imported (FieldIo.dataReadTs k) + 1 + ((35 : ℕ) : Fr) := by
      decide +kernel
    exact FieldIo.forall_accesses.mpr ⟨fun k inside => ⟨35, gap35, gaps k inside⟩,
      ⟨34, gap34, by decide +kernel⟩⟩
  · refine ⟨.imports, ⟨?_, ?_, ?_⟩, fun other namesIt => ?_⟩
    · decide +kernel
    · decide +kernel
    · decide +kernel
    · exact FieldIo.code_inj (namesIt.1.symm.trans (by decide +kernel))

/-- A live row that computes an immediate of zero over a frame at address 0. -/
def stray : Row := Row.ofColumns [0, 1, 0, 0, 0, 0, 7, 7, 0, 0, 0, 0, 0, 0, 0, 0, 0, 0, 0, 0,
  0, 0, 0, 0, 0, 0, 0, 1, 0, 0, 0] [] []

/-- The relation alone does not give a row witness columns: the frame must be one. -/
theorem stray_computes_unsatisfied :
    stray live = 1 ∧ FrOp.Computes stray ∧
      ¬ ∃ columns, Satisfies ExternalChallenges.empty [] (stray.withWitness columns) FrOp.body := by
  have on : stray live = 1 := by simp [stray, Row.ofColumns, live]
  refine ⟨on, ⟨.imm, ?_, ?_, ?_, ?_, ?_, ?_⟩, ?_⟩
  · simp [stray, Row.ofColumns, FrOp.frame, FrOp.opWord, word, headColumns, wordReadValue,
      FrOp.Op.code, FrOp.imm]
  · simp [stray, Row.ofColumns, FrOp.aLive, FrOp.m, FrOp.frameMemory, headColumns,
      FrOp.frameWords, FrOp.Op.readsA]
  · simp [stray, Row.ofColumns, FrOp.bLive, FrOp.m, FrOp.frameMemory, headColumns,
      FrOp.frameWords, FrOp.Op.readsB]
  · simp [stray, Row.ofColumns, FrOp.dLive, FrOp.m, FrOp.frameMemory, headColumns,
      FrOp.frameWords, FrOp.Op.writesD]
  · simp [stray, Row.ofColumns, FrOp.Op.Relates, FrOp.dNew, FrOp.frame, FrOp.bWord, word,
      FrOp.m, FrOp.frameMemory, headColumns, FrOp.frameWords, wordReadValue]
  · intro _
    simp [stray, Row.ofColumns, FrOp.bNew, FrOp.b, FrOp.m, FrOp.frameMemory, headColumns,
      FrOp.frameWords]
  · intro satisfied
    obtain ⟨low, small, equal⟩ := ((FrOp.satisfies_iff on).mp satisfied).frame.aligned
    have zero : stray base = ((0 : ℕ) : Fr) := by simp [stray, Row.ofColumns, base]
    rw [zero] at equal
    have none : 0 = GuestMemory.ramOrigin + 4 * low := by
      refine fr_natCast_inj (by norm_num) ?_ equal
      unfold GuestMemory.ramOrigin
      unfold baseLowBits at small
      omega
    unfold GuestMemory.ramOrigin at none
    omega

end Apogee
