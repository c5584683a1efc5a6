import HeaderRelay.Channel.Contracts
import HeaderRelay.Clock.Run

/-!
# Contracts reached over the channel

A handler that answers calls to a contract by running the contract's own program over the message
channel of another handler. The program makes its channel calls under the client's policy, inside
whatever deadline the call itself runs under.
-/
namespace HeaderRelay.Channel

variable {σ : Type}

/-- Calls to the Bitcoin light client go over the channel; all others are left as they are. -/
def viaBitcoinClient (followed : Nat) (client : Client) (handler : Peer.Handler σ) : Peer.Handler σ
  | .bitcoinClient c => (bitcoinClient client c).run followed client.config.policy handler
  | c => handler c

def viaConsensusClient (followed : Nat) (client : Client) (handler : Peer.Handler σ) : Peer.Handler σ
  | .consensusClient c => (consensusClient client c).run followed client.config.policy handler
  | c => handler c

def viaRelayStore (followed : Nat) (client : Client) (handler : Peer.Handler σ) : Peer.Handler σ
  | .relayStore c => (relayStore client c).run followed client.config.policy handler
  | c => handler c

end HeaderRelay.Channel
