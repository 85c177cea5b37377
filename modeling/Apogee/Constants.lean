import Mathlib.Algebra.Group.Nat.Defs

/-! # Protocol constants

The numbers every other module cites: families, address spaces, challenge slots,
the clock, the call numbers and the packed-mask bit orders.
-/

namespace Apogee

namespace Family

def addSubLuiAuipc : ℕ := 0
def jumpBranchSlt : ℕ := 1
def shiftBitwise : ℕ := 2
def mulDiv : ℕ := 3
def memWord : ℕ := 4
def memSubword : ℕ := 5
def atomics : ℕ := 6
def initTeardown : ℕ := 7
def zeroWindows : ℕ := 8
def keccakF : ℕ := 9
def poseidon2 : ℕ := 10
def frArith : ℕ := 11
def publicInput : ℕ := 12
def publicOutput : ℕ := 13
def adviceWindows : ℕ := 14
def modMul : ℕ := 15
def sha256Comp : ℕ := 16
def ecAdd : ℕ := 17
def fieldWindows : ℕ := 18
def frOp : ℕ := 19
def p2Field : ℕ := 20
def fieldIo : ℕ := 21
def fqOp : ℕ := 22
/-- How many families there are. -/
def count : ℕ := 23

end Family

namespace GuestMemory

/-- First byte of the public input window. -/
def publicInputOrigin : ℕ := 0x8000
/-- First byte of the public output window. -/
def publicOutputOrigin : ℕ := 0xC000
/-- First byte of the advice region. -/
def adviceOrigin : ℕ := 0x80000000

end GuestMemory

namespace Family

/-- The pinned height of the two public value families. -/
def publicWindowHeight : ℕ := 2 ^ 12
def publicInputWindow : ℕ := GuestMemory.publicInputOrigin / (4 * publicWindowHeight)
def publicOutputWindow : ℕ := GuestMemory.publicOutputOrigin / (4 * publicWindowHeight)
/-- The trace heights a family may have. -/
def heightMenu : List ℕ := [2 ^ 8, 2 ^ 12, 2 ^ 16, 2 ^ 18, 2 ^ 20, 2 ^ 22]

end Family

namespace GuestMemory

/-- The first address of guest memory. -/
def ramOrigin : ℕ := 0x10000

/-- The bytes of guest memory. -/
def ramLength : ℕ := 0x7fff0000

/-- Bytes in each public window. -/
def publicWindowBytes : ℕ := 4 * Family.publicWindowHeight

end GuestMemory

namespace AddressSpace

def reg : ℕ := 1
def ram : ℕ := 2
def pc : ℕ := 3
def delegationKeccakF : ℕ := 4
def delegationPoseidon2 : ℕ := 5
def delegationFrArith : ℕ := 6
def delegationModMul : ℕ := 7
def delegationSha256Comp : ℕ := 8
def delegationEcAdd : ℕ := 9
def field : ℕ := 10
def delegationFrOp : ℕ := 11
def delegationP2Field : ℕ := 12
def delegationFieldIo : ℕ := 13
def delegationFqOp : ℕ := 14

end AddressSpace

namespace ChallengeSlot

def memGamma : ℕ := 1
def memAlphaAddr : ℕ := 2
def memAlphaTs : ℕ := 3
def memAlphaVal : ℕ := 4
def memWindowConstant : ℕ := 5

end ChallengeSlot

namespace Memory

/-- The read tree's place in the output map. -/
def readRoot : ℕ := 0

/-- The write tree's place in the output map. -/
def writeRoot : ℕ := 1

end Memory

namespace Clock

/-- Timestamps a cycle spans. -/
def tsStep : ℕ := 4
/-- Every timestamp is below `2 ^ tsBits`. -/
def tsBits : ℕ := 38
/-- The halting sentinel an exit writes as its next pc. -/
def haltPc : ℕ := 1

end Clock

namespace Ecall

def exit : ℕ := 93
def precompilePoseidon2 : ℕ := 0x0500
def precompileFrArith : ℕ := 0x0502
def precompileModMul : ℕ := 0x0504
def precompileEcAdd : ℕ := 0x0506
def precompileKeccakF : ℕ := 0x0507
def precompileSha256Comp : ℕ := 0x0508
def precompileFrOp : ℕ := 0x0509
def precompileP2Field : ℕ := 0x050A
def precompileFieldIo : ℕ := 0x050B
def precompileFqOp : ℕ := 0x050C

end Ecall

namespace Delegation

/-- Every delegation type: its family, its call number, its mirror's address
space and its frame's words. -/
def types : List (ℕ × ℕ × ℕ × ℕ) :=
  [(Family.keccakF, Ecall.precompileKeccakF, AddressSpace.delegationKeccakF, 51),
    (Family.poseidon2, Ecall.precompilePoseidon2, AddressSpace.delegationPoseidon2, 24),
    (Family.frArith, Ecall.precompileFrArith, AddressSpace.delegationFrArith, 25),
    (Family.modMul, Ecall.precompileModMul, AddressSpace.delegationModMul, 25),
    (Family.sha256Comp, Ecall.precompileSha256Comp, AddressSpace.delegationSha256Comp, 25),
    (Family.ecAdd, Ecall.precompileEcAdd, AddressSpace.delegationEcAdd, 97),
    (Family.frOp, Ecall.precompileFrOp, AddressSpace.delegationFrOp, 4),
    (Family.p2Field, Ecall.precompileP2Field, AddressSpace.delegationP2Field, 5),
    (Family.fieldIo, Ecall.precompileFieldIo, AddressSpace.delegationFieldIo, 3),
    (Family.fqOp, Ecall.precompileFqOp, AddressSpace.delegationFqOp, 4)]

/-- How many of the types the base format knows. -/
def baseTypes : ℕ := 6

/-- What a request leaves in `a0`: zero for a base type, the first byte past the
frame for a recursion type. -/
def a0After (index base : ℕ) : ℕ :=
  if index < baseTypes then 0 else base + 4 * (types.getD index (0, 0, 0, 0)).2.2.2

end Delegation

namespace SystemCode

/-- The immediate of a decoded `ecall` row. -/
def ecall : ℕ := 0
def ebreak : ℕ := 1
def fence : ℕ := 2

end SystemCode

end Apogee
