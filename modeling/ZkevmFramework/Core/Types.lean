import ZkevmFramework.JsonHelpers.Hex

/-!
# Blocks, messages and contracts

The types of `core/types`, as the loaders fill them and the runner reads them.
Arrays of bytes are vectors of their size, and a `Value` is its 256-bit number.
-/

namespace Core.Types

open Cpp (Bytes)

abbrev UInt256 := BitVec 256

abbrev Hash := Vector UInt8 32

abbrev Address := Vector UInt8 20

inductive MessageKind where
  | internal
  | deploy
  | refund
  | bounce
deriving DecidableEq, Repr

/-- The bit of the kind in `m_flags`. -/
def MessageKind.bit : MessageKind → Nat
  | .internal => 0
  | .deploy => 1
  | .refund => 2
  | .bounce => 3

/-- `flags.test(kind)` -/
def testFlag (flags : BitVec 8) (kind : MessageKind) : Bool := flags.getLsbD kind.bit

/-- `flags.set(kind)` -/
def setFlag (flags : BitVec 8) (kind : MessageKind) : BitVec 8 := flags ||| (1 <<< kind.bit)

structure CurrencyBalance where
  currency : Hash
  balance : UInt256

structure Message where
  flags : BitVec 8
  chainId : UInt64
  seqno : UInt64
  feeCredit : UInt256
  fromAddress : Address
  toAddress : Address
  refundTo : Address
  bounceTo : Address
  value : UInt256
  currency : List CurrencyBalance
  data : Bytes
  signature : Bytes

/-- A message just declared: numbers and arrays of bytes that have no constructor are
what the memory holds. -/
def Message.declared (memory : Message) : Message :=
  { memory with flags := 0, feeCredit := 0, value := 0, currency := [], data := [], signature := [] }

structure Block where
  id : UInt64
  prevBlock : Hash
  smartContractsRoot : Hash
  inMessagesRoot : Hash
  outMessagesRoot : Hash
  outMessagesNum : UInt64
  receiptsRoot : Hash
  childBlocksRootHash : Hash
  masterChainHash : Hash
  logsBloom : Vector UInt8 256
  timestamp : UInt64
  gasPrice : UInt256

/-- The fields of a `SmartContract` that are read. -/
structure SmartContract where
  address : Address
  balance : UInt256

end Core.Types
