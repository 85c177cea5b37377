import Apogee.Circuit.Delegation

/-! # The field import and export family

One move a row between eight data words of guest memory and a cell of the field
memory. An import keeps the words and an export keeps the cell; an export proves
that the words it writes are congruent to the cell, not that they are canonical.
-/

namespace Apogee.FieldIo

open Delegation Gadgets

def opWord : ℕ := 0
def cellWord : ℕ := 1
/-- The word that holds the pointer to the data words. -/
def ptrWord : ℕ := 2

def frameWords : ℕ := 3
def frameBytes : ℕ := 4 * frameWords

def dataWords : ℕ := 8

/-- The code of an import. -/
def importCode : ℕ := 1
/-- The code of an export. -/
def exportCode : ℕ := 2

def dataDelta : ℕ := 1
def cellDelta : ℕ := 0

/-- The frame's memory columns, which the family's own follow. -/
def frameMemory : ℕ := headColumns + 4 * frameWords
/-- The frame's witness columns, which the family's own follow. -/
def frameWitness : ℕ := frameWitnessRange16 frameWords

def m (i : ℕ) : PolyAddress := .memory (frameMemory + i)
def w (i : ℕ) : PolyAddress := .witness (frameWitness + i)

/-- A field of data word `k`. -/
def dataReadTs (k : ℕ) : PolyAddress := m (3 * k)
def dataRead (k : ℕ) : PolyAddress := m (3 * k + 1)
def dataWrite (k : ℕ) : PolyAddress := m (3 * k + 2)
def cellReadTs : PolyAddress := m (3 * dataWords)
def cellOld : PolyAddress := m (3 * dataWords + 1)
def cellNew : PolyAddress := m (3 * dataWords + 2)

/-- A gap chunk of data word `k`; the cell's are at `dataWords`. -/
def gapChunk (k c : ℕ) : PolyAddress := w (gapChunks * k + c)
def importFlag : PolyAddress := w (2 * (dataWords + 1))
def exportFlag : PolyAddress := w (2 * (dataWords + 1) + 1)
/-- An exported word's high half. -/
def wordHi (k : ℕ) : PolyAddress := w (2 * (dataWords + 1) + 2 + k)
def multiplicity : PolyAddress := w (2 * (dataWords + 1) + 2 + dataWords)
def witnessColumns : ℕ := frameWitness + 2 * (dataWords + 1) + 3 + dataWords

/-- A frame word's value. -/
def frame (j : ℕ) : PolyAddress := word j wordReadValue

/-- The access of data word `k`. -/
def dataAccess (k : ℕ) : Access where
  name := "data" ++ toString k
  space := AddressSpace.ram
  mask := live
  addr := frame ptrWord
  offset := 4 * k
  delta := dataDelta
  readTs := dataReadTs k
  read := dataRead k
  write := dataWrite k
  gap := [gapChunk k 0, gapChunk k 1]

/-- The cell's access. -/
def cellAccess : Access where
  name := "cell"
  space := AddressSpace.field
  mask := live
  addr := frame cellWord
  offset := 0
  delta := cellDelta
  readTs := cellReadTs
  read := cellOld
  write := cellNew
  gap := [gapChunk dataWords 0, gapChunk dataWords 1]

/-- The eight data words, then the cell. -/
def accesses : List Access := (List.range dataWords).map dataAccess ++ [cellAccess]

/-- `−Σ 2^(32k)·x_k` under a selector. -/
def packed (selector : PolyAddress) (x : ℕ → PolyAddress) :
    List (Coeff × PolyAddress × PolyAddress) :=
  (List.range dataWords).map fun k => (neg (2 ^ (32 * k)), selector, x k)

/-- Everything the family adds beside its frame. -/
def gates : List (String × GateDef) :=
  [("import_boolean", booleanity importFlag),
    ("export_boolean", booleanity exportFlag),
    ("one_op_a_live_row", linear [(lit 1, importFlag), (lit 1, exportFlag), (neg 1, live)]),
    ("op_word", linear [(lit importCode, importFlag), (lit exportCode, exportFlag),
      (neg 1, frame opWord)]),
    ("import_rule", quadratic [] ((lit 1, importFlag, cellNew) :: packed importFlag dataRead))] ++
  ((List.range dataWords).map fun k => ("import_keeps_word" ++ toString k,
    quadratic [] [(lit 1, importFlag, dataWrite k), (neg 1, importFlag, dataRead k)])) ++
  [("export_keeps_cell",
      quadratic [] [(lit 1, exportFlag, cellNew), (neg 1, exportFlag, cellOld)]),
    ("export_rule",
      quadratic [] (packed exportFlag dataWrite ++ [(lit 1, exportFlag, cellOld)]))]

/-- The exported words' bounds. -/
def wordLookups : List LookupExpr :=
  (List.range dataWords).flatMap fun k =>
    range32 ("word" ++ toString k) exportFlag (dataWrite k) (wordHi k)

def memoryNames : List String :=
  Delegation.memoryNames frameWords ++
    ((List.range dataWords).flatMap fun k => ["read_ts", "read", "write"].map fun field =>
      "data" ++ toString k ++ "_" ++ field) ++
    ["cell_read_ts", "cell_old", "cell_new"]

def witnessNames : List String :=
  frameNamesRange16 frameWords ++
    (((List.range dataWords).map fun k => "data" ++ toString k) ++ ["cell"]).flatMap (fun name =>
      (List.range gapChunks).map fun c => "gap_" ++ name ++ "_c" ++ toString c) ++
    ["import", "export"] ++
    ((List.range dataWords).map fun k => "word" ++ toString k ++ "_hi") ++ ["mult_range16"]

/-- The circuit before assembly. -/
def body : Frame.Body where
  memory := memoryNames
  witness := witnessNames
  setup := []
  virtuals := [(.range16, "range16")]
  reads := leavesWith AddressSpace.delegationFieldIo frameWords accesses false
  writes := leavesWith AddressSpace.delegationFieldIo frameWords accesses true
  enforcing := readOnlyGates frameWords frameBytes ++ gates
  lookups := frameLookupsRange16 frameWords ++ accesses.flatMap Access.gapLookups ++ wordLookups
  channels := [⟨LookupChannel.range16, [.virtual .range16], multiplicity⟩]

end Apogee.FieldIo
