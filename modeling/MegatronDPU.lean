import MegatronDPU.Compressor.Topk
import MegatronDPU.Data.Blending
import MegatronDPU.Data.RampUp
import MegatronDPU.Data.RandomSampler
import MegatronDPU.Ddp.Dispatch
import MegatronDPU.Gateway.Bucket
import MegatronDPU.Gateway.BucketCalls
import MegatronDPU.Gateway.HashRing
import MegatronDPU.Gateway.TokenBucket
import MegatronDPU.Inference.ChunkAllocator
import MegatronDPU.Parallel.Experts
import MegatronDPU.Parallel.Orthogonal
import MegatronDPU.Server.Assignment
import MegatronDPU.Server.HalfSum
import MegatronDPU.Sglang.EagleVerify
import MegatronDPU.Sglang.GroupRanks
import MegatronDPU.Sglang.KvReplay
import MegatronDPU.Sglang.Names
import MegatronDPU.Torch.BroadcastReturns
import MegatronDPU.Torch.CrossBarrier
import MegatronDPU.Van.Rdma
import MegatronDPU.Worker.CompletionRuns
import MegatronDPU.Worker.Compression
import MegatronDPU.Worker.Coordination
import MegatronDPU.Worker.Credits
import MegatronDPU.Worker.Gdr
import MegatronDPU.Worker.Keys
import MegatronDPU.Worker.NcclSplit
import MegatronDPU.Worker.Widths
