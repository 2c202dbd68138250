import ObliviousStore.Block.Basic
import ObliviousStore.Block.Codec
import ObliviousStore.Block.Sample
import ObliviousStore.Block.Sealing
import ObliviousStore.Bucket.Edit
import ObliviousStore.Bucket.Packing
import ObliviousStore.Bucket.Sample
import ObliviousStore.Bytes
import ObliviousStore.Cipher.Aes256
import ObliviousStore.Cipher.Galois128
import ObliviousStore.Cipher.Gcm
import ObliviousStore.Compression
import ObliviousStore.Engine.AesGcm
import ObliviousStore.Engine.Basic
import ObliviousStore.Engine.Scripted
import ObliviousStore.Error
import ObliviousStore.FailStop
import ObliviousStore.Log
import ObliviousStore.Lz4.Expand
import ObliviousStore.Lz4.Format
import ObliviousStore.Lz4.Search
import ObliviousStore.Op
import ObliviousStore.Random.Shuffle
import ObliviousStore.Random.SplitMix
import ObliviousStore.Random.Tape
import ObliviousStore.SecretKey
import ObliviousStore.Stash
import ObliviousStore.Storage.Address
import ObliviousStore.Storage.Basic
import ObliviousStore.Storage.Sqrt
import ObliviousStore.Storage.Tree
import ObliviousStore.Text.Blank
import ObliviousStore.TextFile
import ObliviousStore.Proofs.Lz4.Expansion
import ObliviousStore.Proofs.Lz4.Framing
import ObliviousStore.Proofs.Lz4.Matching
import ObliviousStore.Proofs.Compression
import ObliviousStore.Proofs.Block.Codec
import ObliviousStore.Proofs.Bucket.Packing
import ObliviousStore.Proofs.Block.Sealing
import ObliviousStore.Proofs.Cipher.Gcm
import ObliviousStore.Proofs.Op
import ObliviousStore.Proofs.Block.Binding
import ObliviousStore.Proofs.Storage.Access
import ObliviousStore.Proofs.Bucket.Sealing
import ObliviousStore.Proofs.Storage.Refinement
import ObliviousStore.Proofs.Bucket.Unpacking
import ObliviousStore.Proofs.Storage.History
import ObliviousStore.Proofs.Engine.Dialogue
import ObliviousStore.Proofs.Engine.Task
import ObliviousStore.Proofs.Engine.Failure
import ObliviousStore.Proofs.Engine.Nonce
import ObliviousStore.Proofs.Random.Acceptance
import ObliviousStore.Proofs.Random.Permutation
import ObliviousStore.Proofs.Random.Uniform
import ObliviousStore.Proofs.Bucket.Sample
import ObliviousStore.Proofs.Storage.Call
import ObliviousStore.Proofs.Storage.Trace
import ObliviousStore.Proofs.Engine.Origin
import ObliviousStore.Proofs.Storage.Shape
import ObliviousStore.Proofs.Cipher.Binary
import ObliviousStore.Proofs.Cipher.Galois128
import ObliviousStore.Proofs.Cipher.Aes256
import ObliviousStore.Proofs.Block.Opening
import ObliviousStore.Proofs.Cipher.Tag
import ObliviousStore.Proofs.Block.Tampering
import ObliviousStore.Proofs.Block.Frame
import ObliviousStore.Proofs.Storage.Capacity
import ObliviousStore.Proofs.Decompression
import ObliviousStore.Proofs.Engine.Draws
import ObliviousStore.Proofs.Stash
import ObliviousStore.Proofs.Bucket.Composition
import ObliviousStore.Proofs.Storage.Listing
import ObliviousStore.Proofs.Bucket.Entries
import ObliviousStore.Proofs.SecretKey
