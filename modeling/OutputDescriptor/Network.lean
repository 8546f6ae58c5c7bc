/-!
The networks of the payment system. Keys tell the main network from the test networks only.
-/

namespace OutputDescriptor

inductive Network
  | bitcoin
  | testnet
  | signet
  | regtest
deriving DecidableEq

namespace Network

def name : Network → String
  | bitcoin => "bitcoin"
  | testnet => "testnet"
  | signet => "signet"
  | regtest => "regtest"

def all : List Network :=
  [bitcoin, testnet, signet, regtest]

def ofName? (text : String) : Option Network :=
  all.find? fun network => network.name == text

end Network

/-- The networks a key can be made for. -/
inductive KeyNetwork
  | main
  | test
deriving DecidableEq

def KeyNetwork.network : KeyNetwork → Network
  | main => .bitcoin
  | test => .testnet

end OutputDescriptor
