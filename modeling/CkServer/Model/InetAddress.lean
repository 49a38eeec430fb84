import CkServer.Library.Text

/-! # Internet addresses

An address is the four bytes of `sin_addr` and the port, both in network order. -/

namespace CkServer

structure InetAddress where
  sin_addr : UInt8 × UInt8 × UInt8 × UInt8
  sin_port : UInt16

namespace InetAddress

open Text

/-- What `inet_ntop` prints: four numbers with dots between them. -/
def toIP (address : InetAddress) : List UInt8 :=
  let (a, b, c, d) := address.sin_addr
  decimal a.toNat ++ ascii "." ++ decimal b.toNat ++ ascii "." ++ decimal c.toNat ++ ascii "." ++
    decimal d.toNat

def toIpPort (address : InetAddress) : List UInt8 :=
  address.toIP ++ ascii ":" ++ decimal address.sin_port.toNat

end InetAddress

end CkServer
