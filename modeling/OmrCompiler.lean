import OmrCompiler.ConstraintMetadata
import OmrCompiler.BranchHandlers
import OmrCompiler.RemainderSimplifier
import OmrCompiler.RelationPropagation
import OmrCompiler.BitVectorRun
import OmrCompiler.SimpleRegexFilter
import OmrCompiler.ColouringSound
import OmrCompiler.MultiplyPowers
import OmrCompiler.HedgeRun
import OmrCompiler.TrampolineSync
import OmrCompiler.CodeCacheExclusive
import OmrCompiler.CodeCacheCount
import OmrCompiler.DivisionSound
import OmrCompiler.MultiplicationRange
import OmrCompiler.MixedMerge
import OmrCompiler.VirtualMachineMerge
import OmrCompiler.BinaryRecorderSound
import OmrCompiler.RegionRun
import OmrCompiler.OsrRoundTrip
import OmrCompiler.OsrDefiningSound
import OmrCompiler.LimitFilterOwnText
import OmrCompiler.InequalitySimplifier
import OmrCompiler.RemainderRange
import OmrCompiler.ConversionRange
import OmrCompiler.NegationRange
import OmrCompiler.MagicDivisors
import OmrCompiler.BitwiseSound
import OmrCompiler.MultiplicationHandlers
import OmrCompiler.SparseOperands
import OmrCompiler.RotationPattern
import OmrCompiler.CompareNarrowing
import OmrCompiler.ShiftSound
import OmrCompiler.BitTestShared
import OmrCompiler.BitVectorIterator
import OmrCompiler.CodeCacheFailure
import OmrCompiler.MetaDataFailure
import OmrCompiler.SparseFlags
import OmrCompiler.ConstraintBounds
import OmrCompiler.MoveWide
import OmrCompiler.OsrArguments
import OmrCompiler.OsrLimits
import OmrCompiler.DenseRun
import OmrCompiler.DominatorTree
import OmrCompiler.OperandStacks
