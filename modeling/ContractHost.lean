import ContractHost.Bytes
import ContractHost.Hex
import ContractHost.Address
import ContractHost.Path
import ContractHost.Path.Order
import ContractHost.Path.Layout
import ContractHost.Gas.Schedule
import ContractHost.Gas.Meter
import ContractHost.Operation
import ContractHost.Status
import ContractHost.Message
import ContractHost.Error
import ContractHost.Outcome
import ContractHost.Digest.Keccak
import ContractHost.Digest.Blake3
import ContractHost.Creation
import ContractHost.Tree
import ContractHost.Tree.NodeMap
import ContractHost.Tree.NodeTree
import ContractHost.Kernel
import ContractHost.Memory
import ContractHost.Request
import ContractHost.Host.Frame
import ContractHost.Host.Reading
import ContractHost.Host.Storage
import ContractHost.Host.SubCall
import ContractHost.Host.Serve
import ContractHost.Json
import ContractHost.Json.Parser
import ContractHost.Wire
import ContractHost.Guest.Interface
import ContractHost.Guest.Linker
import ContractHost.Guest.Contract
import ContractHost.Guest.Run
import ContractHost.Proofs.Encoding
import ContractHost.Proofs.Spelling
import ContractHost.Proofs.Schedule
import ContractHost.Proofs.Steps
import ContractHost.Proofs.Shape
import ContractHost.Proofs.Inquiry
import ContractHost.Proofs.Price
import ContractHost.Proofs.Endings
import ContractHost.Proofs.Atomicity
import ContractHost.Proofs.Conservation
import ContractHost.Proofs.Storage
import ContractHost.Proofs.Refunds
import ContractHost.Proofs.Occupancy
import ContractHost.Proofs.Footprint
import ContractHost.Proofs.Siblings
import ContractHost.Proofs.Lifecycle
import ContractHost.Proofs.GasLimit
import ContractHost.Proofs.Vacancy
import ContractHost.Proofs.Dispatch
import ContractHost.Proofs.Lineage
import ContractHost.Proofs.Extent
import ContractHost.Proofs.Accesses
import ContractHost.Proofs.Signature
import ContractHost.Proofs.JsonText
import ContractHost.Proofs.RoundTrip
import ContractHost.Proofs.Entries
import ContractHost.Proofs.Binding
import ContractHost.Proofs.Deeds
import ContractHost.Proofs.Exchange
import ContractHost.Proofs.Transfer
import ContractHost.Proofs.Replies
import ContractHost.Proofs.Copies
import ContractHost.Proofs.RecentBlocks
import ContractHost.Proofs.Resolution
import ContractHost.Proofs.Contents
import ContractHost.Proofs.Amounts
import ContractHost.Proofs.Moves
