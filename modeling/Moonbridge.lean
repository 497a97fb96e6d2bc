import Moonbridge.Compile
import Moonbridge.Files.Store
import Moonbridge.Main
import Moonbridge.Node.Check
import Moonbridge.Node.Dump
import Moonbridge.Proofs.Arguments
import Moonbridge.Proofs.Command
import Moonbridge.Proofs.Composition
import Moonbridge.Proofs.Dump
import Moonbridge.Proofs.JavaScript.Accessor
import Moonbridge.Proofs.JavaScript.Balance
import Moonbridge.Proofs.JavaScript.Indentation
import Moonbridge.Proofs.JavaScript.NumberText
import Moonbridge.Proofs.JavaScript.Scopes
import Moonbridge.Proofs.JavaScript.Stated
import Moonbridge.Proofs.Node.Defects
import Moonbridge.Proofs.Parser.ByItself
import Moonbridge.Proofs.Parser.Diagnostics
import Moonbridge.Proofs.Parser.Limits
import Moonbridge.Proofs.Parser.Recovery
import Moonbridge.Proofs.Readback
import Moonbridge.Proofs.Stages
import Moonbridge.Proofs.Token.Faults
import Moonbridge.Proofs.Token.Separated
