import Backref.Access
import Backref.Assembly.Class
import Backref.Assembly.Encoder
import Backref.Assembly.PoolBuilder
import Backref.Bytecode.Decode
import Backref.Bytecode.Instruction
import Backref.Bytecode.Opcode
import Backref.Bytes.BigEndian
import Backref.Bytes.Cursor
import Backref.Bytes.Reader
import Backref.Bytes.Scalar
import Backref.ClassFile.Basic
import Backref.ClassFile.Encode
import Backref.ClassFile.Read
import Backref.Constant.Basic
import Backref.Constant.Codec
import Backref.Constant.Pool
import Backref.Constant.Render
import Backref.Decimal.Layout
import Backref.Decimal.Shortest
import Backref.Descriptor.Basic
import Backref.Descriptor.Parse
import Backref.Discovery
import Backref.Fault
import Backref.Handle
import Backref.Index.Basic
import Backref.Index.Namespace
import Backref.Index.Shared
import Backref.Lambda
import Backref.Proofs.Assembly.Body
import Backref.Proofs.Assembly.Bootstraps
import Backref.Proofs.Assembly.Builder
import Backref.Proofs.Assembly.Class
import Backref.Proofs.Assembly.Code
import Backref.Proofs.Assembly.Decoding
import Backref.Proofs.Assembly.DynamicCalls
import Backref.Proofs.Assembly.Emission
import Backref.Proofs.Assembly.Faults
import Backref.Proofs.Assembly.Pool
import Backref.Proofs.Assembly.Recovery
import Backref.Proofs.Assembly.Reports
import Backref.Proofs.Assembly.Requests
import Backref.Proofs.Bytecode.Exact
import Backref.Proofs.Bytecode.Layout
import Backref.Proofs.Bytecode.Switches
import Backref.Proofs.Bytecode.Tiling
import Backref.Proofs.Bytecode.Walks
import Backref.Proofs.Bytes.Delimited
import Backref.Proofs.Bytes.Extension
import Backref.Proofs.Bytes.Operations
import Backref.Proofs.Bytes.Reading
import Backref.Proofs.Bytes.Written
import Backref.Proofs.ClassFile.Accepted
import Backref.Proofs.ClassFile.Delimited
import Backref.Proofs.ClassFile.Ends
import Backref.Proofs.ClassFile.Faults
import Backref.Proofs.ClassFile.Foreign
import Backref.Proofs.ClassFile.Frame
import Backref.Proofs.ClassFile.Written
import Backref.Proofs.Constant.Chains
import Backref.Proofs.Constant.Layout
import Backref.Proofs.Constant.Links
import Backref.Proofs.Constant.Lookups
import Backref.Proofs.Constant.Slots
import Backref.Proofs.Constant.Written
import Backref.Proofs.Descriptor.Grammar
import Backref.Proofs.Descriptor.Language
import Backref.Proofs.Discovery.Classification
import Backref.Proofs.Discovery.Elements
import Backref.Proofs.Discovery.Faults
import Backref.Proofs.Discovery.Invariants
import Backref.Proofs.Discovery.Kinds
import Backref.Proofs.Discovery.Lambdas
import Backref.Proofs.Discovery.Mentions
import Backref.Proofs.Discovery.Search
import Backref.Proofs.Discovery.Stopping
import Backref.Proofs.Faults
import Backref.Proofs.InOrder
import Backref.Proofs.Index.Batch
import Backref.Proofs.Index.Constructors
import Backref.Proofs.Index.Filing
import Backref.Proofs.Index.Grouping
import Backref.Proofs.Index.Interleaving
import Backref.Proofs.Index.Lambdas
import Backref.Proofs.Index.Log
import Backref.Proofs.Index.Namespaces
import Backref.Proofs.Index.Partition
import Backref.Proofs.Machine.ClassFile
import Backref.Proofs.Machine.Descriptor
import Backref.Proofs.Machine.Ingestion
import Backref.Proofs.Machine.Instruction
import Backref.Proofs.Machine.Operations
import Backref.Proofs.Machine.Parser
import Backref.Proofs.Machine.Scalars
import Backref.Proofs.Machine.Slice
import Backref.Proofs.Machine.Text
import Backref.Proofs.Outcome
import Backref.Proofs.Symbol.Language
import Backref.Proofs.Symbol.Parse
import Backref.Proofs.Symbol.Usage
import Backref.Proofs.Text.Forms
import Backref.Proofs.Text.Lenient
import Backref.Proofs.Text.RoundTrip
import Backref.Symbol.Basic
import Backref.Symbol.Order
import Backref.Symbol.Parse
import Backref.Text.Modified
import Backref.Text.Quoted
import Backref.Text.Utf16
