import Apogee.Circuit.Frame

/-! # The delegation frame

A delegation row is one call: a block of RAM words at fixed offsets from a base
pointer, and an anchor that pairs the call with its request. This is the part
every delegation circuit shares: the columns, the leaves, the gates that place
the words, and the obligations that bound the timestamp gaps and the base.
-/

namespace Apogee

namespace Delegation

/-- The frame words' in-cycle slot. -/
def frameDelta : ℕ := 0
/-- The anchor's in-cycle slot. -/
def anchorDelta : ℕ := 3

/-- The cycle whose request this call answers. -/
def cycle : PolyAddress := .memory 0
/-- The row's mask. -/
def live : PolyAddress := .memory 1
/-- The frame's base pointer. -/
def base : PolyAddress := .memory 2
/-- The teardown read's value, free on both sides of the anchor. -/
def anchorValue : PolyAddress := .memory 3

/-- The columns before the frame's words. -/
def headColumns : ℕ := 4

/-- A frame word's field: its address. -/
def wordAddr : ℕ := 0
/-- A frame word's field: the timestamp of the write it reads. -/
def wordReadTs : ℕ := 1
/-- A frame word's field: the value it reads. -/
def wordReadValue : ℕ := 2
/-- A frame word's field: the value it writes. -/
def wordWriteValue : ℕ := 3

/-- One field of frame word `j`. -/
def word (j field : ℕ) : PolyAddress := .memory (headColumns + 4 * j + field)

/-- The memory columns' names. -/
def memoryNames (words : ℕ) : List String :=
  ["cycle", "live", "base", "anchor_value"] ++ (List.range words).flatMap fun j =>
    ["addr", "read_ts", "read_value", "write_value"].map fun field =>
      "w" ++ toString j ++ "_" ++ field

/-- The width of `(base − ramOrigin) / 4`. -/
def baseLowBits : ℕ := 29
/-- The width of the room the frame leaves above it. -/
def baseRoomBits : ℕ := 31

/-- A leaf's timestamp. -/
inductive Timestamp
  | zero
  | column (column : PolyAddress)
  /-- `4·cycle + delta`. -/
  | write (delta : ℕ)

/-- A leaf under its own mask at `addr + offset`: the access's tuple where the
mask is 1, and 1 where it is 0. A coefficient is one literal or one challenge,
so a multiple of a challenge is its term repeated. -/
def maskedLeaf (mask : PolyAddress) (space : ℕ) (addr : PolyAddress) (offset : ℕ)
    (ts : Timestamp) (value : Option PolyAddress) : GateDef :=
  let alphaTs := Coeff.challenge ChallengeSlot.memAlphaTs
  let addrTerms := (Coeff.challenge ChallengeSlot.memAlphaAddr, addr, mask)
  let spaceTerms := [(.challenge ChallengeSlot.memGamma, mask), (neg 1, mask), (lit space, mask)] ++
    List.replicate offset (Coeff.challenge ChallengeSlot.memAlphaAddr, mask)
  let valueTerms := value.toList.map fun value =>
    (Coeff.challenge ChallengeSlot.memAlphaVal, value, mask)
  match ts with
  | .zero => .quadratic (lit 1) spaceTerms (addrTerms :: valueTerms)
  | .column column => .quadratic (lit 1) spaceTerms (addrTerms :: (alphaTs, column, mask) :: valueTerms)
  | .write delta => .quadratic (lit 1) (spaceTerms ++ List.replicate delta (alphaTs, mask))
      (addrTerms :: List.replicate Clock.tsStep (alphaTs, cycle, mask) ++ valueTerms)

/-- A leaf under the row's mask. -/
def leaf (space : ℕ) (addr : PolyAddress) (ts : Timestamp) (value : Option PolyAddress) :
    GateDef :=
  maskedLeaf live space addr 0 ts value

/-- A leaf that is the product's identity. -/
def padLeaf : GateDef := .linear [] (lit 1)

/-- One access a row makes besides its frame: the word or cell `addr + offset`,
read at `readTs` with value `read` and written at `4·cycle + delta` with value
`write`, under `mask`. -/
structure Access where
  name : String
  space : ℕ
  mask : PolyAddress
  addr : PolyAddress
  offset : ℕ
  delta : ℕ
  readTs : PolyAddress
  read : PolyAddress
  write : PolyAddress
  gap : List PolyAddress

/-- The access's read leaf and its write leaf. -/
def Access.leaves (access : Access) : (String × GateDef) × (String × GateDef) :=
  let leaf := fun ts value =>
    maskedLeaf access.mask access.space access.addr access.offset ts (some value)
  (("read_" ++ access.name, leaf (.column access.readTs) access.read),
    ("write_" ++ access.name, leaf (.write access.delta) access.write))

/-- The leaves of one side before padding: one for each frame word, the anchor's,
then the further accesses'. The anchor reads the tuple its request wrote and
writes the answer at timestamp 0. -/
def sideLeaves (space words : ℕ) (accesses : List Access) (write : Bool) :
    List (String × GateDef) :=
  ((List.range words).map fun j =>
    if write then
      ("write_w" ++ toString j, leaf AddressSpace.ram (word j wordAddr) (.write frameDelta)
        (some (word j wordWriteValue)))
    else
      ("read_w" ++ toString j, leaf AddressSpace.ram (word j wordAddr)
        (.column (word j wordReadTs)) (some (word j wordReadValue)))) ++
  (if write then ("write_anchor", leaf space base .zero none)
    else ("read_anchor", leaf space base (.write anchorDelta) (some anchorValue))) ::
  accesses.map fun access => if write then access.leaves.2 else access.leaves.1

/-- One side's leaves, padded to a power of two. The pads' names count from the
frame's own leaves when there is no further access, and from the side's start
otherwise. -/
def leavesWith (space words : ℕ) (accesses : List Access) (write : Bool) :
    List (String × GateDef) :=
  let leaves := sideLeaves space words accesses write
  let pads := Nat.nextPowerOfTwo leaves.length - leaves.length
  let start := if accesses.isEmpty then 0 else leaves.length
  leaves ++ (List.range pads).map fun i =>
    ((if write then "write_pad" else "read_pad") ++ toString (start + i), padLeaf)

/-- A chunk's width: one halfword table. -/
def chunkBits : ℕ := 16

/-- The committed chunks of a timestamp gap. -/
def gapChunks : ℕ := 2

/-- The obligations that bound a linear form to `[0, 2 ^ bits)`, by its chunks
above the lowest: every chunk a halfword, the top one again once scaled, and the
remainder a halfword. The source panics when `bits` is not strictly between the
chunks' width and one chunk more. -/
def boundChunked (name : String) (x : List (Coeff × PolyAddress)) (chunks : List PolyAddress)
    (bits : ℕ) (selector : PolyAddress) (constant : Coeff) : List LookupExpr :=
  (chunks.mapIdx fun c chunk =>
    Gadgets.range (name ++ "_c" ++ toString c ++ "_range") selector (column chunk)) ++
  [Gadgets.range (name ++ "_top_scaled") selector
      (linear [(lit (2 ^ (chunkBits - (bits - chunkBits * chunks.length))), chunks.getLastD live)]),
    Gadgets.range (name ++ "_lo_range") selector
      (.linear (x ++ chunks.mapIdx fun c chunk => (neg (2 ^ (chunkBits * (c + 1))), chunk))
        constant)]

/-- The access's read strictly precedes its write. -/
def Access.gapLookups (access : Access) : List LookupExpr :=
  boundChunked ("gap_" ++ access.name) [(lit Clock.tsStep, cycle), (neg 1, access.readTs)]
    access.gap Clock.tsBits access.mask (.literal ((access.delta : Fr) - 1))

/-- The frame's own gates over chunked bounds: the mask's booleanity, the words'
addresses, and the base's place in guest memory. -/
def frameGatesRange16 (words frameBytes : ℕ) (baseLow baseRoom : PolyAddress) :
    List (String × GateDef) :=
  ("live_boolean", booleanity live) ::
  ((List.range words).map fun j =>
    ("addr_w" ++ toString j, quadratic [(neg (4 * j), live)]
      [(lit 1, live, word j wordAddr), (neg 1, live, base)])) ++
  [("base_aligned", quadratic [(neg GuestMemory.ramOrigin, live)]
      [(lit 1, live, base), (neg 4, live, baseLow)]),
    ("base_in_window", quadratic [(lit (2 ^ 31 - frameBytes), live)]
      [(neg 1, live, base), (neg 1, live, baseRoom)])]

/-- The frame words' timestamp-gap obligations. -/
def gapLookupsRange16 (words : ℕ) (chunk : ℕ → ℕ → PolyAddress) : List LookupExpr :=
  (List.range words).flatMap fun j =>
    boundChunked ("gap" ++ toString j) [(lit Clock.tsStep, cycle), (neg 1, word j wordReadTs)]
      ((List.range gapChunks).map (chunk j)) Clock.tsBits live
      (.literal ((frameDelta : Fr) - 1))

/-- The base's two obligations. -/
def baseLookupsRange16 (baseLow baseLowHi baseRoom baseRoomHi : PolyAddress) : List LookupExpr :=
  boundChunked "base_low" [(lit 1, baseLow)] [baseLowHi] baseLowBits live (lit 0) ++
    boundChunked "base_room" [(lit 1, baseRoom)] [baseRoomHi] baseRoomBits live (lit 0)

/-- The witness columns a chunked frame takes. -/
def frameWitnessRange16 (words : ℕ) : ℕ := gapChunks * words + 4

/-- Those columns' names. -/
def frameNamesRange16 (words : ℕ) : List String :=
  ((List.range words).flatMap fun j => (List.range gapChunks).map fun c =>
    "gap" ++ toString j ++ "_c" ++ toString c) ++
  ["base_low", "base_low_hi", "base_room", "base_room_hi"]

/-- The gap chunk of a frame word. -/
def gapChunk (j c : ℕ) : PolyAddress := .witness (gapChunks * j + c)

/-- The frame words are written back unchanged. -/
def writesBack (words : ℕ) : List (String × GateDef) :=
  (List.range words).map fun j => ("writes_back_w" ++ toString j,
    linear [(lit 1, word j wordWriteValue), (neg 1, word j wordReadValue)])

/-- A read-only frame's gates: the frame's own, and every word written back. -/
def readOnlyGates (words frameBytes : ℕ) : List (String × GateDef) :=
  frameGatesRange16 words frameBytes (.witness (gapChunks * words))
    (.witness (gapChunks * words + 2)) ++ writesBack words

/-- A chunked frame's obligations over its own witness columns. -/
def frameLookupsRange16 (words : ℕ) : List LookupExpr :=
  gapLookupsRange16 words gapChunk ++
    baseLookupsRange16 (.witness (gapChunks * words)) (.witness (gapChunks * words + 1))
      (.witness (gapChunks * words + 2)) (.witness (gapChunks * words + 3))

end Delegation

end Apogee
