import DripCore.Asmap
import DripCore.BlockMalleation
import DripCore.ChunkEnvelope
import DripCore.CoinCompression
import DripCore.ConditionStack
import DripCore.DependencyClosure
import DripCore.EarlyStop
import DripCore.FailureFlags
import DripCore.FeeArithmetic
import DripCore.FixLinearization
import DripCore.ForestRuns
import DripCore.HTTPSeeds
import DripCore.IndexDifferences
import DripCore.Linearize
import DripCore.NetworkHashRate
import DripCore.Obfuscation
import DripCore.OrphanageOperations
import DripCore.PresyncBound
import DripCore.ReorgConsistency
import DripCore.RollingBloomFilter
import DripCore.ScriptBuilding
import DripCore.ScriptTimeLocks
import DripCore.SignatureEncoding
import DripCore.SkipPointers
import DripCore.SoftForkFlags
import DripCore.SubNet
import DripCore.TargetDigits
import DripCore.TrucChecks
import DripCore.V1Link
import DripCore.VersionBits
