import Sloader.Data.Bytes
import Sloader.Data.Outcome
import Sloader.Elf
import Sloader.Host
import Sloader.Binary
import Sloader.Loader
import Sloader.Binary.Load
import Sloader.Data.Breadth
import Sloader.Loader.Queue
import Sloader.Sample
import Sloader.Loader.BreadthFirst
import Sloader.Symbols
import Sloader.Relocate
import Sloader.Relocate.Pass
import Sloader.Relocate.Words
import Sloader.Relocate.Separate
import Sloader.Tls
import Sloader.Tls.Image
import Sloader.Tls.General
import Sloader.Binary.Segments
import Sloader.Relocate.Copy
import Sloader.Loader.Segments
import Sloader.Run
import Sloader.Run.Layout
import Sloader.Run.History
import Sloader.Run.Once
import Sloader.Run.Paths
import Sloader.Run.Isolation
import Sloader.Run.Identity
import Sloader.Dlsym
import Sloader.Run.Failure
import Sloader.Run.Executable
import Sloader.Data.Traced
import Sloader.Execute
import Sloader.Data.Words
import Sloader.Execute.Stack
import Sloader.Execute.Order
import Sloader.Data.Code
import Sloader.Execute.ThreadLocal
import Sloader.Data.Text
import Sloader.MapFile
import Sloader.Binary.Dynamic
import Sloader.Binary.Tables
import Sloader.Binary.Symtabs
import Sloader.Library
import Sloader.Library.Names
import Sloader.Run.Weak
import Sloader.Tls.Space
import Sloader.Tls.Alignment
import Sloader.Execute.Once
import Sloader.Libc
import Sloader.Data.Pieces
import Sloader.Main
import Sloader.Data.Descent
import Sloader.Library.Configuration
import Sloader.Binary.Checks
import Sloader.Relocate.CopySize
import Sloader.Tls.Designated
import Sloader.Run.Indirect
import Sloader.Data.Linking
import Sloader.Run.LinkMap
import Sloader.Data.Fuel
import Sloader.Run.Ends
import Sloader.Data.Ranges
import Sloader.Binary.Grants
import Sloader.ExecLoader
import Sloader.ExecLoader.Load
import Sloader.ExecLoader.Unload
import Sloader.ExecLoader.Stack
import Sloader.Relocate.Agree
import Sloader.Data.Tokens
import Sloader.Library.Directives
import Sloader.MapFile.Table
import Sloader.Run.AddressSpace
import Sloader.Tls.Frame
import Sloader.Data.Records
import Sloader.Binary.Footprint
import Sloader.Loader.SelfContained
import Sloader.Run.Determined
import Sloader.Run.Image
import Sloader.Execute.Entry
import Sloader.Run.Contents
