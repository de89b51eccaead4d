import Trelis.Cocoa.Accept
import Trelis.Cocoa.Add
import Trelis.Cocoa.Agreement
import Trelis.Cocoa.Atomicity
import Trelis.Cocoa.Authority
import Trelis.Cocoa.Build
import Trelis.Cocoa.Commit
import Trelis.Cocoa.CommitterState
import Trelis.Cocoa.CounterReuse
import Trelis.Cocoa.Coverage
import Trelis.Cocoa.EpochSecrecy
import Trelis.Cocoa.Founding
import Trelis.Cocoa.Geometry
import Trelis.Cocoa.GroupMessages
import Trelis.Cocoa.GroupRun
import Trelis.Cocoa.History
import Trelis.Cocoa.Index
import Trelis.Cocoa.IndexAlgebra
import Trelis.Cocoa.KeySchedule
import Trelis.Cocoa.LeafAssignment
import Trelis.Cocoa.Machine
import Trelis.Cocoa.MachineRefines
import Trelis.Cocoa.Malleability
import Trelis.Cocoa.MembershipCommit
import Trelis.Cocoa.Messaging
import Trelis.Cocoa.Node
import Trelis.Cocoa.NodeInvariant
import Trelis.Cocoa.Operation
import Trelis.Cocoa.Overflow
import Trelis.Cocoa.ParentHash
import Trelis.Cocoa.Partition
import Trelis.Cocoa.PathAuthority
import Trelis.Cocoa.PathRecovery
import Trelis.Cocoa.PathUpdate
import Trelis.Cocoa.Process
import Trelis.Cocoa.Receive
import Trelis.Cocoa.RemovalExclusion
import Trelis.Cocoa.Remove
import Trelis.Cocoa.Representation
import Trelis.Cocoa.Resolution
import Trelis.Cocoa.ResolutionLaw
import Trelis.Cocoa.Run
import Trelis.Cocoa.Seed
import Trelis.Cocoa.Session
import Trelis.Cocoa.SignedBytes
import Trelis.Cocoa.SingleCommit
import Trelis.Cocoa.SizeGates
import Trelis.Cocoa.Stored
import Trelis.Cocoa.Transcripts
import Trelis.Cocoa.TreeSecrecy
import Trelis.Cocoa.Update
import Trelis.Cocoa.View
import Trelis.Cocoa.Welcome
import Trelis.Cocoa.WelcomeJoin
import Trelis.Cocoa.WellFormed
import Trelis.Cocoa.WholeRun
import Trelis.Cocoa.WireCodec
import Trelis.Cocoa.WireFormat
import Trelis.Cocoa.Writes
import Trelis.Error
import Trelis.Hybrid.Combiner
import Trelis.Hybrid.CommittingAead
import Trelis.Hybrid.Ed448
import Trelis.Hybrid.QrCode
import Trelis.Hybrid.SafetyNumber
import Trelis.Hybrid.Sample
import Trelis.Hybrid.Signature
import Trelis.Lib.AsciiText
import Trelis.Lib.Barrett
import Trelis.Lib.BinarySearch
import Trelis.Lib.Butterfly
import Trelis.Lib.Bytes
import Trelis.Lib.Calls
import Trelis.Lib.CheckedRadix
import Trelis.Lib.CoeffList
import Trelis.Lib.Cursor
import Trelis.Lib.ExtendedGcd
import Trelis.Lib.FastTransform
import Trelis.Lib.FieldCodec
import Trelis.Lib.FloatRounding
import Trelis.Lib.Forest
import Trelis.Lib.KeyChain
import Trelis.Lib.Outcome
import Trelis.Lib.PackedWords
import Trelis.Lib.Panic
import Trelis.Lib.RadixCode
import Trelis.Lib.ReversedGcd
import Trelis.Lib.Rfc7748
import Trelis.Lib.Runs
import Trelis.Lib.Schnorr
import Trelis.Lib.SignedWord
import Trelis.Lib.Slices
import Trelis.Lib.TopElements
import Trelis.Lib.Transition
import Trelis.Lib.TrinomialRing
import Trelis.Lib.Window
import Trelis.MlDsa.Completeness
import Trelis.MlDsa.Elem
import Trelis.MlDsa.Encode
import Trelis.MlDsa.Hint
import Trelis.MlDsa.Internal
import Trelis.MlDsa.Ntt
import Trelis.MlDsa.Param
import Trelis.MlDsa.Poly
import Trelis.MlDsa.Rounding
import Trelis.MlDsa.Sampling
import Trelis.MlDsa.SecretKey
import Trelis.MlDsa.Signature
import Trelis.MlDsa.SignedMessages
import Trelis.MultiDevice.Approval
import Trelis.MultiDevice.DeviceCertificates
import Trelis.MultiDevice.DeviceKeyWrap
import Trelis.MultiDevice.HistoryShare
import Trelis.MultiDevice.IdentityCert
import Trelis.MultiDevice.KeyStore
import Trelis.MultiDevice.Recovery
import Trelis.MultiDevice.SignedStatements
import Trelis.Primitives
import Trelis.Ratchet.Atomicity
import Trelis.Ratchet.Conversation
import Trelis.Ratchet.History
import Trelis.Ratchet.KeypairHistory
import Trelis.Ratchet.Message
import Trelis.Ratchet.Network
import Trelis.Ratchet.Run
import Trelis.Ratchet.Sample
import Trelis.Ratchet.Secrecy
import Trelis.Ratchet.State
import Trelis.Ratchet.WireFormat
import Trelis.Sntrup.CheckedDecapsulation
import Trelis.Sntrup.CheckedMult
import Trelis.Sntrup.CheckedReciprocal
import Trelis.Sntrup.CheckedScalar
import Trelis.Sntrup.Correctness
import Trelis.Sntrup.Decapsulation
import Trelis.Sntrup.Division
import Trelis.Sntrup.Encoding
import Trelis.Sntrup.Kem
import Trelis.Sntrup.Multiplications
import Trelis.Sntrup.Ntt
import Trelis.Sntrup.Poly
import Trelis.Sntrup.Reciprocal
import Trelis.Sntrup.Ring
import Trelis.Sntrup.Scalar
import Trelis.Sntrup.Scheme
import Trelis.Symbolic
import Trelis.Wasm.DeviceApi
import Trelis.Wasm.GroupApi
import Trelis.Wasm.GroupChat
import Trelis.Wasm.GroupCommits
import Trelis.Wasm.GroupJoining
import Trelis.Wasm.HandshakeApi
import Trelis.Wasm.HistorySync
import Trelis.Wasm.IdentityApi
import Trelis.Wasm.KeyStoreApi
import Trelis.Wasm.Primitives
import Trelis.Wasm.RatchetApi
import Trelis.Wasm.RatchetState
import Trelis.Wasm.Sample
import Trelis.Wasm.SessionState
import Trelis.Wasm.Transport
import Trelis.Wire.Codec
import Trelis.X3dh.Binding
import Trelis.X3dh.Handshake
import Trelis.X3dh.HybridKem
import Trelis.X3dh.KeyCodec
import Trelis.X3dh.KeyPairCodec
import Trelis.X3dh.Keys
import Trelis.X3dh.Sample
import Trelis.X3dh.Session
import Trelis.Hybrid.Ed448B
