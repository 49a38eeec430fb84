import CkServer.Model.TcpServer

/-! # The names of the connections

The buffer for a connection's name is long enough for every address and every positive
number, so that different numbers give different names. -/

namespace CkServer

open Text

/-- Four bytes and a port in decimal. -/
theorem length_toIpPort_le (address : InetAddress) : address.toIpPort.length ≤ 21 := by
  obtain ⟨⟨a, b, c, d⟩, port⟩ := address
  have hbyte (b : UInt8) : (decimal b.toNat).length ≤ 3 :=
    length_decimal_le (by omega) (lt_trans b.toNat_lt (by omega))
  have hport : (decimal port.toNat).length ≤ 5 :=
    length_decimal_le (by omega) (lt_trans port.toNat_lt (by omega))
  have ha := hbyte a
  have hb := hbyte b
  have hc := hbyte c
  have hd := hbyte d
  have hdot : (ascii ".").length = 1 := rfl
  have hcolon : (ascii ":").length = 1 := rfl
  simp only [InetAddress.toIpPort, InetAddress.toIP, List.length_append]
  omega

/-- Nothing of a name is cut off. -/
theorem connName_eq (cfg : ServerConfig) {n : ℕ} (h : n < 2 ^ 31) :
    cfg.connName n =
      cfg.name_ ++ (ascii "-" ++ cfg.listenAddr.toIpPort ++ ascii "#" ++ decimal n) := by
  have haddress := length_toIpPort_le cfg.listenAddr
  have hnumber : (decimal n).length ≤ 10 := length_decimal_le (by omega) (lt_trans h (by omega))
  have hprint : printInt n = decimal n := rfl
  have hdash : (ascii "-").length = 1 := rfl
  have hhash : (ascii "#").length = 1 := rfl
  rw [ServerConfig.connName, hprint, snprintf, List.take_of_length_le]
  simp only [List.length_append]
  omega

theorem connName_injective (cfg : ServerConfig) {m n : ℕ} (hm : m < 2 ^ 31) (hn : n < 2 ^ 31)
    (h : cfg.connName m = cfg.connName n) : m = n := by
  rw [connName_eq cfg hm, connName_eq cfg hn, List.append_cancel_left_eq,
    List.append_cancel_left_eq] at h
  exact decimal_injective h

end CkServer
