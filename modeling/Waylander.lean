import Waylander.Client.Dispatch
import Waylander.Client.EndOfFile
import Waylander.Support.Framing
import Waylander.Wire.ReferenceFormat
import Waylander.Wire.RoundTrip
import Waylander.Wire.Reencoding
import Waylander.Wire.FixedPoint
import Waylander.Wire.ReferenceEncoder
import Waylander.Wire.Subscripts
import Waylander.Wire.StaleStorage
import Waylander.Wire.AppendThrows
import Waylander.Client.Flush
import Waylander.Client.FlushInOrder
import Waylander.Client.Invariants
import Waylander.Client.MidMessage
import Waylander.Client.OwnPayload
import Waylander.Client.MessageVisitor
import Waylander.Client.ObjectIds
import Waylander.Sstd.BaseLifetime
import Waylander.Generator.Xml
import Waylander.Support.ContentModel
import Waylander.Generator.Dataclasses
import Waylander.Generator.Parse
import Waylander.Generator.Correspondence
import Waylander.Generator.ContentModels
import Waylander.Generator.Structs
import Waylander.Generator.Declarations
import Waylander.Client.Conversation
import Waylander.Client.Ledger
import Waylander.Client.EndToEnd
import Waylander.Support.CxxComments
import Waylander.Generator.Header
import Waylander.Client.Stopping
import Waylander.Examples.ListRegistryGlobals
import Waylander.Client.FunctionObjects
import Waylander.Examples.Compositor
import Waylander.Examples.Conformance
import Waylander.Examples.FirstRequests
import Waylander.Client.Progress
import Waylander.Examples.WindowEnds
