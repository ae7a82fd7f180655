import TvaMpc.Communication.WorkerThreads
import TvaMpc.Containers.AlternatingBits
import TvaMpc.Containers.BitCompressCorrect
import TvaMpc.Containers.IntViews
import TvaMpc.Containers.SharedVectorAccesses
import TvaMpc.Containers.VectorAccesses
import TvaMpc.Machinery.Carry
import TvaMpc.Machinery.Logged
import TvaMpc.Machinery.Loops
import TvaMpc.Machinery.Straightline
import TvaMpc.Operators.Comparisons
import TvaMpc.Operators.Distinct
import TvaMpc.Operators.Replicated3pcAggregation
import TvaMpc.Operators.Replicated3pcComparisons
import TvaMpc.Operators.Replicated3pcSorting
import TvaMpc.Operators.Replicated3pcStreaming
import TvaMpc.Operators.RowReference
import TvaMpc.Operators.TimeSeriesAccesses
import TvaMpc.Operators.WholeColumn
import TvaMpc.Protocols.Adders
import TvaMpc.Protocols.Division
import TvaMpc.Protocols.Fantastic4pcDeadlock
import TvaMpc.Protocols.Fantastic4pcDealing
import TvaMpc.Protocols.Fantastic4pcIntegrity
import TvaMpc.Protocols.Fantastic4pcOpening
import TvaMpc.Protocols.Fantastic4pcPrivacy
import TvaMpc.Protocols.Fantastic4pcPrograms
import TvaMpc.Protocols.PrimitiveAccesses
import TvaMpc.Protocols.Replicated3pcPrivacy
import TvaMpc.Protocols.Replicated3pcPrograms
import TvaMpc.Protocols.Replicated3pcStreams
import TvaMpc.Queries.Cloud
import TvaMpc.Relational.Replicated3pcEncodedTable
import TvaMpc.Service.Batching
import TvaMpc.Service.HandoffSafe
