import OutputDescriptor.Main
import OutputDescriptor.Proofs.KeySource
import OutputDescriptor.Proofs.PublicForm
import OutputDescriptor.Proofs.Secrets
import OutputDescriptor.Proofs.KeyRing
import OutputDescriptor.Proofs.KeyRing.Answers
import OutputDescriptor.Proofs.KeyRing.Single
import OutputDescriptor.Proofs.Availability
import OutputDescriptor.Proofs.Compression
import OutputDescriptor.Proofs.Combo
import OutputDescriptor.Proofs.Wildcard
import OutputDescriptor.Proofs.CommandLine.Derive
import OutputDescriptor.Proofs.Bytes
import OutputDescriptor.Proofs.Grammar
import OutputDescriptor.Proofs.Grammar.Key
import OutputDescriptor.Proofs.Grammar.Descriptor
import OutputDescriptor.Proofs.Parser.Failure
import OutputDescriptor.Proofs.Grammar.Failure
import OutputDescriptor.Proofs.Prediction
import OutputDescriptor.Proofs.BchCode
import OutputDescriptor.Proofs.Base58
import OutputDescriptor.Proofs.Bech32
import OutputDescriptor.Proofs.Address
import OutputDescriptor.Proofs.Key.Text
import OutputDescriptor.Proofs.Token.Reading
import OutputDescriptor.Proofs.Token.Literals
import OutputDescriptor.Proofs.Text
import OutputDescriptor.Proofs.Checksum
import OutputDescriptor.Proofs.Characters
import OutputDescriptor.Proofs.RoundTrip
import OutputDescriptor.Proofs.Burst
import OutputDescriptor.Proofs.CheckEquation
import OutputDescriptor.Proofs.RawScript
import OutputDescriptor.Proofs.Script
import OutputDescriptor.Proofs.Multisig
import OutputDescriptor.Proofs.Derivation.Spelling
import OutputDescriptor.Proofs.Token.Path
import OutputDescriptor.Proofs.Derivation.Agreement
import OutputDescriptor.Proofs.Token.Tiling
import OutputDescriptor.Proofs.Token.Recognition
import OutputDescriptor.Proofs.KeyOrder
import OutputDescriptor.Proofs.Ranged
import OutputDescriptor.Proofs.Derivation.Admission
import OutputDescriptor.Proofs.Parser.Session
import OutputDescriptor.Proofs.RedeemScript
import OutputDescriptor.Proofs.Grammar.Adjacency
import OutputDescriptor.Proofs.Token.Markers
