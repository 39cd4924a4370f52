import ZkevmFramework.Core.PathList
import ZkevmFramework.Core.MptRemove
import ZkevmFramework.Core.MptLookup
import ZkevmFramework.Core.BasicHash
import ZkevmFramework.Core.MptStore
import ZkevmFramework.Core.MptLoads
import ZkevmFramework.Core.MptClean
import ZkevmFramework.Core.MptOrder
import ZkevmFramework.Core.MptFold
import ZkevmFramework.JsonHelpers.Chunks
import ZkevmFramework.OutputArtifacts.Grammar
import ZkevmFramework.OutputArtifacts.Concrete
import ZkevmFramework.OutputArtifacts.Columns
import ZkevmFramework.AssignerRunner.SameFile
import ZkevmFramework.AssignerRunner.HexText
import ZkevmFramework.AssignerRunner.Loaders
import ZkevmFramework.AssignerRunner.StateEntries
import ZkevmFramework.Assigner.Files
import ZkevmFramework.BlockGenerator.Generates
