import Veles.Arith.Uint256
import Veles.Arith.Compact
import Veles.Lib.LittleEndian
import Veles.Lib.ExceptBind
import Veles.Lib.ParentForest
import Veles.Lib.BitGroups
import Veles.Lib.ListGetD
import Veles.Lib.DigitBuffer
import Veles.Lib.LastWriter
import Veles.Lib.Limbs
import Veles.Arith.BaseUint
import Veles.Arith.BaseUintShift
import Veles.Serialize.Stream
import Veles.Serialize.CompactSize
import Veles.Serialize.VarInt
import Veles.Serialize.Vector
import Veles.Serialize.Compressor
import Veles.Primitives.Transaction
import Veles.Chain.BlockIndex
import Veles.Chain.Chain
import Veles.Chain.Work
import Veles.Chain.Locator
import Veles.Validation.BlockIndex
import Veles.Pow.Params
import Veles.Pow.DarkGravityWave
import Veles.Pow.NextWorkRange
import Veles.Pow.Unbounded
import Veles.Spork.SporkManager
import Veles.Governance.Object
import Veles.Reward.Halving
import Veles.Reward.Supply
import Veles.Consensus.Merkle
import Veles.Consensus.MerkleBlock
import Veles.Lib.SignMagnitude
import Veles.Script.ScriptNum
import Veles.Script.Script
import Veles.Script.Interpreter
import Veles.Util.StrEncodings
import Veles.Util.Base58
import Veles.Address.Bech32
import Veles.Lib.CheckedInt
import Veles.Consensus.TxVerify
import Veles.Coins.View
import Veles.Coins.Run
import Veles.Lib.OrderStatistic
import Veles.Chain.MedianTime
import Veles.Consensus.LockTime
