import SwiftJanet.Copy.Rejection
import SwiftJanet.Copy.Trap
import SwiftJanet.Copy.Loss
import SwiftJanet.Copy.RoundTrip
import SwiftJanet.Copy.Scalars
import SwiftJanet.Eval.Report
import SwiftJanet.Executor.Guarantees
import SwiftJanet.Runtime.Confinement
import SwiftJanet.Lib.Probing
import SwiftJanet.Copy.Dictionaries
import SwiftJanet.Copy.Frame
import SwiftJanet.Copy.Depth
import SwiftJanet.Define.Binding
import SwiftJanet.Define.Entry
import SwiftJanet.Define.Environment
import SwiftJanet.Define.Sizes
import SwiftJanet.Define.Names
import SwiftJanet.Define.Store
import SwiftJanet.Copy.CallChain
import SwiftJanet.Copy.Tree
import SwiftJanet.Executor.Identity
import SwiftJanet.Define.Loss
import SwiftJanet.VM.Canonical
import SwiftJanet.Parse.Drive
import SwiftJanet.Parse.ReadBack
import SwiftJanet.Bytecode.Registers
import SwiftJanet.Bytecode.Optimize
import SwiftJanet.GC.Runs
