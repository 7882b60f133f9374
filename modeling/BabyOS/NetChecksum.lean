import BabyOS.NetWire
import BabyOS.NetRun

open List

namespace BabyOS

open Net

/-- The checksum that `ip_t::receive` compares with zero. -/
def ipSum (s : Net) (b : Nat) : Half := checkSum (bytes (s.view b) 20)

/-- `udp_t::receive` finds the checksum of a datagram right, and goes on. -/
def UdpPasses (cfg : NetCfg) (s : Net) (b : Nat) (ip : Word) : Prop :=
  ∃ t, receiveSum cfg b ip 17 (ntohs (getHalf (s.view b) 4)) s = .ok (some 0, t) ∧
    udpReceive cfg b ip s = (do
      popFront b 8
      dgramNetReceive b ip (ntohs (getHalf (s.view b) 0)) (ntohs (getHalf (s.view b) 2))) t

def UdpFails (cfg : NetCfg) (s : Net) (b : Nat) (ip : Word) : Prop :=
  ∃ sum t, sum ≠ 0 ∧ receiveSum cfg b ip 17 (ntohs (getHalf (s.view b) 4)) s = .ok (some sum, t) ∧
    udpReceive cfg b ip s = .ok (-1, t)

def TcpPasses (cfg : NetCfg) (s : Net) (b : Nat) (ip : Word) : Prop :=
  ∃ t, receiveSum cfg b ip 6 (.ofNat 16 (s.bufs b).dataLen) s = .ok (some 0, t) ∧
    tcpReceive cfg b ip s = (do
      popFront b 20
      streamReceive cfg (.read (s.view b)) b ip) t

def TcpFails (cfg : NetCfg) (s : Net) (b : Nat) (ip : Word) : Prop :=
  ∃ sum t, sum ≠ 0 ∧ receiveSum cfg b ip 6 (.ofNat 16 (s.bufs b).dataLen) s = .ok (some sum, t) ∧
    tcpReceive cfg b ip s = .ok (-1, t)

/-- At a host that it has reached in a frame, the header passes the test, and fails when a word of it has been
replaced. -/
structure IpChecked (cfg cfg' : NetCfg) (packet : List Byte) : Prop where
  source : ∀ (t : Net) (b : Nat), t.content b = padded packet → ntohl (getWord (t.view b) 12) = cfg.ipaddr
  passes : ∀ (t : Net) (b : Nat), t.content b = padded packet → ipSum t b = 0
  fails : ∀ (t : Net) (b : Nat) (hdr : List Byte), WordReplaced (packet.take 20) hdr → t.content b = hdr ++ (padded packet).drop 20 →
    ipSum t b ≠ 0 ∧ ipReceive cfg' b t = .ok ((), (t.popFront b 20).2)

/-- At the host of its address the datagram passes the test, and fails when a word of its payload has been
replaced. -/
structure UdpChecked (cfg cfg' : NetCfg) (packet : List Byte) : Prop where
  passes : ∀ t b held all exts, Own t (b ::ₘ held) all exts → t.Spare 1 → t.content b = (padded packet).drop 20 →
    UdpPasses cfg' t b cfg.ipaddr
  fails : ∀ t b held all exts payload, Own t (b ::ₘ held) all exts → t.Spare 1 → WordReplaced (packet.drop 28) payload →
    t.content b = (packet.drop 20).take 8 ++ payload ++ (padded packet).drop packet.length →
      UdpFails cfg' t b cfg.ipaddr

/-- The same of a segment, of which any word may have been replaced. -/
structure TcpChecked (cfg cfg' : NetCfg) (packet : List Byte) : Prop where
  passes : ∀ t b held all exts, Own t (b ::ₘ held) all exts → t.Spare 1 → t.content b = (padded packet).drop 20 →
    TcpPasses cfg' t b cfg.ipaddr
  fails : ∀ t b held all exts segment, Own t (b ::ₘ held) all exts → t.Spare 1 → WordReplaced (packet.drop 20) segment →
    t.content b = segment ++ (padded packet).drop packet.length → TcpFails cfg' t b cfg.ipaddr

section

variable {cfg cfg' : NetCfg} {s t : Net} {b : Nat} {id total : Half} {ip : Word} {protocol : Byte}
  {data segment rest : List Byte} {held all exts : Multiset Nat}

theorem receiveSum_eq (cfg : NetCfg) (ip : Word) (protocol : Byte) (ho : Own s (b ::ₘ held) all exts) (hs : s.Spare 1) (hc : s.content b = segment ++ rest)
    (ht : segment.length = total.toNat) (hl : 12 + (segment ++ rest).length ≤ 2048) :
    ∃ t, receiveSum cfg b ip protocol total s =
      .ok (some (checkSum (pseudoHdr (htonl ip) (htonl cfg.ipaddr) protocol (htons total) ++ segment)), t) := by
  have hlen : (s.bufs b).dataLen = (segment ++ rest).length := by rw [← hc, length_content]
  obtain ⟨r, t, hr, -, -, -, heq⟩ := (@ends_receiveSum cfg s b ⟨s.view b, (s.bufs b).dataLen⟩ held all exts ho ⟨rfl, rfl⟩ ip
    protocol total).returns
  refine ⟨t, ?_⟩
  rw [hr, heq, if_pos (hs.alloc (by rw [hlen]; exact hl))]
  unfold transportSum
  dsimp only
  rw [hlen, if_pos, ← ht, bytes_view hc]
  rw [length_append, ← ht]
  split
  · rw [length_append] at hl
    omega
  · omega

theorem length_ipHeader (cfg : NetCfg) (id : Half) (ip : Word) (protocol : Byte) (len : Nat) :
    (ipHeader cfg id ip protocol len).length = 20 := rfl

theorem padded_ipPacket (cfg : NetCfg) (id : Half) (ip : Word) (protocol : Byte) (data : List Byte) :
    padded (ipPacket cfg id ip protocol data) = ipHeader cfg id ip protocol data.length ++
      (data ++ List.replicate (26 - data.length) 0) := by
  have hlen : 46 - (ipPacket cfg id ip protocol data).length = 26 - data.length := by
    unfold ipPacket
    rw [length_append, length_ipHeader]
    omega
  unfold padded
  rw [hlen]
  unfold ipPacket
  rw [append_assoc]

theorem ipChecked_ipPacket : IpChecked cfg cfg' (ipPacket cfg id ip protocol data) := by
  obtain ⟨front, hfront, hhdr⟩ : ∃ front, front.length = 10 ∧ ipHeader cfg id ip protocol data.length =
      front ++ le16 (checkSum (front ++ le16 0 ++ (le32 (htonl cfg.ipaddr) ++ le32 (htonl ip)))) ++
        (le32 (htonl cfg.ipaddr) ++ le32 (htonl ip)) := by
    refine ⟨[0x45, 0] ++ le16 (htons (.ofNat 16 (data.length + 20))) ++ le16 (htons id) ++ le16 (htons 0) ++ [32, protocol],
      rfl, ?_⟩
    unfold ipHeader ipHdr
    simp only [append_assoc]
  have hlen := length_ipHeader cfg id ip protocol data.length
  have hzero : checkSum (ipHeader cfg id ip protocol data.length) = 0 := by
    rw [hhdr]
    refine checkSum_stored (by rw [hfront]) ?_
    rw [length_append, length_append, hfront]
    change 10 + 2 + 8 ≤ 65536
    omega
  refine ⟨fun t b hc => ?_, fun t b hc => ?_, fun t b hdr hw hc => ?_⟩
  · rw [padded_ipPacket, hhdr] at hc
    have hsplit : ∀ x y : List Byte, front ++ x ++ (le32 (htonl cfg.ipaddr) ++ le32 (htonl ip)) ++ y =
        (front ++ x) ++ le32 (htonl cfg.ipaddr) ++ (le32 (htonl ip) ++ y) := by
      intro x y
      simp only [append_assoc]
    rw [hsplit] at hc
    have hw := getWord_view hc
    rw [length_append, hfront] at hw
    exact (congrArg ntohl hw).trans (ntohl_htonl _)
  · rw [padded_ipPacket] at hc
    unfold ipSum
    rw [← hlen, bytes_view hc]
    exact hzero
  · have htake : (ipPacket cfg id ip protocol data).take 20 = ipHeader cfg id ip protocol data.length := by
      unfold ipPacket
      rw [← hlen, take_left]
    rw [htake] at hw
    have hsum : ipSum t b ≠ 0 := by
      have hhdrlen : hdr.length = 20 := hw.length.trans hlen
      have hne : checkSum ([] ++ hdr) ≠ 0 :=
        checkSum_replaced hw rfl (by rw [nil_append, hlen]; omega) (by rw [nil_append]; exact hzero)
      unfold ipSum
      rw [← hhdrlen, bytes_view hc]
      exact hne
    refine ⟨hsum, ?_⟩
    unfold ipSum at hsum
    unfold ipReceive
    rw [get_bind, popFront_bind, if_pos hsum]
    rfl

theorem udpChecked_udpDatagram {srcPort dstPort : Half} (hdst : cfg'.ipaddr = ip) (hlen : data.length + 42 ≤ 2048) :
    UdpChecked cfg cfg' (ipPacket cfg id ip 17 (udpDatagram cfg ip srcPort dstPort data)) := by
  obtain ⟨front, he⟩ : ∃ front, front = le16 (htons srcPort) ++ le16 (htons dstPort) := ⟨_, rfl⟩
  have hfront : front.length = 4 := by
    rw [he]
    rfl
  obtain ⟨total, htotal⟩ : ∃ total : Half, total = .ofNat 16 (data.length + 8) := ⟨_, rfl⟩
  have hnat : total.toNat = data.length + 8 := by
    rw [htotal, BitVec.toNat_ofNat, Nat.mod_eq_of_lt (by omega)]
  obtain ⟨ps, hps⟩ : ∃ ps, ps = pseudoHdr (htonl cfg.ipaddr) (htonl cfg'.ipaddr) 17 (htons total) := ⟨_, rfl⟩
  have hpslen : ps.length = 12 := by
    rw [hps]
    rfl
  obtain ⟨sum, hsum⟩ : ∃ sum, sum = checkSum (ps ++ (front ++ le16 (htons total)) ++ le16 0 ++ data) := ⟨_, rfl⟩
  have hsplit : udpDatagram cfg cfg'.ipaddr srcPort dstPort data = front ++ le16 (htons total) ++ le16 sum ++ data := by
    rw [hsum, hps, htotal, he]
    unfold udpDatagram udpHdr
    simp only [append_assoc]
  have hhdrlen : (front ++ le16 (htons total) ++ le16 sum).length = 8 := by
    rw [length_append, length_append, hfront]
    rfl
  have hzero : checkSum (ps ++ (front ++ le16 (htons total)) ++ le16 sum ++ data) = 0 := by
    rw [hsum]
    refine checkSum_stored ?_ ?_
    · rw [length_append, length_append, hpslen, hfront]
      change (12 + (4 + 2)) % 2 = 0
      rfl
    · rw [length_append, length_append, length_append, length_append, hpslen, hfront]
      change 12 + (4 + 2) + 2 + _ ≤ _
      omega
  obtain ⟨hdr, hhdr⟩ : ∃ hdr, hdr = front ++ le16 (htons total) ++ le16 sum := ⟨_, rfl⟩
  rw [← hhdr] at hsplit hhdrlen
  have hreceive : ∀ (t : Net) (b : Nat) (held all exts : Multiset Nat) (payload rest : List Byte),
      Own t (b ::ₘ held) all exts → t.Spare 1 → payload.length = data.length →
      12 + (hdr ++ payload ++ rest).length ≤ 2048 → t.content b = hdr ++ payload ++ rest → ∃ u, receiveSum cfg' b cfg.ipaddr 17 (ntohs (getHalf (t.view b) 4)) t =
        .ok (some (checkSum (ps ++ hdr ++ payload)), u) := by
    intro t b held all exts payload rest ho hs hp hr hc
    have hfield : ntohs (getHalf (t.view b) 4) = total := by
      have hc' : t.content b = front ++ le16 (htons total) ++ (le16 sum ++ payload ++ rest) := by
        rw [hc, hhdr]
        simp only [append_assoc]
      rw [← hfront, getHalf_view hc', ntohs_htons]
    have hseg : (hdr ++ payload).length = total.toNat := by
      rw [length_append, hhdrlen, hp, hnat, Nat.add_comm]
    obtain ⟨u, hu⟩ := receiveSum_eq cfg' cfg.ipaddr 17 ho hs hc hseg hr
    refine ⟨u, ?_⟩
    rw [hfield, hu, hps, append_assoc]
  obtain ⟨zeros, hzeros⟩ : ∃ zeros : List Byte, zeros = List.replicate (26 - (hdr ++ data).length) 0 := ⟨_, rfl⟩
  have hpadded : padded (ipPacket cfg id ip 17 (udpDatagram cfg ip srcPort dstPort data)) =
      ipHeader cfg id ip 17 (hdr ++ data).length ++ (hdr ++ data ++ zeros) := by
    rw [padded_ipPacket, ← hdst, hsplit, hzeros]
  have hfit : ∀ payload : List Byte, payload.length = data.length → 12 + (hdr ++ payload ++ zeros).length ≤ 2048 := by
    intro payload hp
    rw [length_append, length_append, hzeros, length_replicate, length_append, hp, hhdrlen]
    omega
  have hpacket : ipPacket cfg id ip 17 (udpDatagram cfg ip srcPort dstPort data) =
      ipHeader cfg id ip 17 (hdr ++ data).length ++ (hdr ++ data) := by
    rw [← hdst, hsplit]
    rfl
  have hiplen := length_ipHeader cfg id ip 17 (hdr ++ data).length
  refine ⟨fun t b held all exts ho hs hc => ?_, fun t b held all exts payload ho hs hw hc => ?_⟩
  · rw [hpadded, ← hiplen, drop_left] at hc
    obtain ⟨u, hu⟩ := hreceive t b held all exts data zeros ho hs rfl (hfit data rfl) hc
    rw [hhdr, ← append_assoc ps, hzero] at hu
    refine ⟨u, hu, ?_⟩
    unfold udpReceive
    rw [get_bind, bind_ok hu]
    rfl
  · have hdata : (ipPacket cfg id ip 17 (udpDatagram cfg ip srcPort dstPort data)).drop 28 = data := by
      rw [hpacket, ← append_assoc, drop_left' (by rw [length_append, hiplen, hhdrlen])]
    rw [hdata] at hw
    rw [hpadded, hpacket, ← append_assoc _ (hdr ++ data), drop_left, drop_left' hiplen,
      take_left' hhdrlen] at hc
    obtain ⟨u, hu⟩ := hreceive t b held all exts payload zeros ho hs hw.length (hfit payload hw.length) hc
    have hne : checkSum (ps ++ hdr ++ payload) ≠ 0 := by
      refine checkSum_replaced hw ?_ ?_ ?_
      · rw [length_append, hpslen, hhdrlen]
      · rw [length_append, length_append, hpslen, hhdrlen]
        omega
      · rw [hhdr, ← append_assoc ps]
        exact hzero
    refine ⟨_, u, hne, hu, ?_⟩
    unfold udpReceive
    rw [get_bind, bind_ok hu]
    dsimp only
    rw [if_pos hne]
    rfl

theorem checkSum_tcpSegment (cfg : NetCfg) (p : TcpSend) (hlen : p.data.length + 54 ≤ 2048) :
    checkSum (pseudoHdr (htonl cfg.ipaddr) (htonl p.dstIp) 6 (htons (.ofNat 16 p.total)) ++ tcpSegment cfg p) = 0 := by
  obtain ⟨ps, hps⟩ : ∃ ps, ps = pseudoHdr (htonl cfg.ipaddr) (htonl p.dstIp) 6 (htons (.ofNat 16 p.total)) := ⟨_, rfl⟩
  have hpslen : ps.length = 12 := by
    rw [hps]
    rfl
  have hsplit : ps ++ tcpSegment cfg p = ps ++ tcpFront p ++
      le16 (checkSum (ps ++ tcpFront p ++ le16 0 ++ (le16 0 ++ p.payload))) ++ (le16 0 ++ p.payload) := by
    rw [← tcpSegment_eq cfg p hps]
    simp only [append_assoc]
  have hseg := length_tcpSegment cfg p (by omega)
  have htotal : p.total ≤ max (p.data.length + 20) 26 := max_le_max (Nat.mod_le _ _) (Nat.le_refl _)
  have hlength := congrArg List.length hsplit
  rw [← hps, hsplit]
  refine checkSum_stored ?_ ?_
  · rw [length_append, hpslen, length_tcpFront]
  · rw [length_append, hpslen, hseg, length_append, length_append] at hlength
    rw [length_append, length_append]
    change _ = _ + 2 + _ at hlength
    change _ + 2 + _ ≤ _
    omega

theorem tcpChecked_tcpSegment {p : TcpSend} (hdst : cfg'.ipaddr = p.dstIp) (hlen : p.data.length + 54 ≤ 2048) :
    TcpChecked cfg cfg' (ipPacket cfg id p.dstIp 6 (tcpSegment cfg p)) := by
  have hzero := checkSum_tcpSegment cfg p hlen
  rw [← hdst] at hzero
  have hseg := length_tcpSegment cfg p (by omega)
  have htotal : 26 ≤ p.total ∧ p.total ≤ max (p.data.length + 20) 26 :=
    ⟨Nat.le_max_right _ _, max_le_max (Nat.mod_le _ _) (Nat.le_refl _)⟩
  have hnat : (BitVec.ofNat 16 p.total).toNat = p.total := by
    rw [BitVec.toNat_ofNat, Nat.mod_eq_of_lt (by omega)]
  -- a segment is never padded by Ethernet
  have hpadded : padded (ipPacket cfg id p.dstIp 6 (tcpSegment cfg p)) = ipPacket cfg id p.dstIp 6 (tcpSegment cfg p) := by
    rw [padded_ipPacket, hseg, Nat.sub_eq_zero_of_le htotal.1, List.replicate_zero, List.append_nil, ← hseg]
    rfl
  have hdrop : (ipPacket cfg id p.dstIp 6 (tcpSegment cfg p)).drop 20 = tcpSegment cfg p :=
    drop_left' (length_ipHeader cfg id p.dstIp 6 _)
  have hreceive : ∀ (t : Net) (b : Nat) (held all exts : Multiset Nat) (segment : List Byte), Own t (b ::ₘ held) all exts →
      t.Spare 1 → segment.length = p.total → t.content b = segment →
      ∃ u, receiveSum cfg' b cfg.ipaddr 6 (.ofNat 16 (t.bufs b).dataLen) t = .ok (some (checkSum (pseudoHdr
        (htonl cfg.ipaddr) (htonl cfg'.ipaddr) 6 (htons (.ofNat 16 p.total)) ++ segment)), u) := by
    intro t b held all exts segment ho hs hl hc
    have hdata : (t.bufs b).dataLen = p.total := by rw [← length_content, hc, hl]
    rw [hdata]
    refine receiveSum_eq cfg' cfg.ipaddr 6 ho hs (hc.trans (List.append_nil segment).symm) (hl.trans hnat.symm) ?_
    rw [List.append_nil, hl]
    omega
  refine ⟨fun t b held all exts ho hs hc => ?_, fun t b held all exts segment ho hs hw hc => ?_⟩
  · rw [hpadded, hdrop] at hc
    obtain ⟨u, hu⟩ := hreceive t b held all exts _ ho hs hseg hc
    rw [hzero] at hu
    refine ⟨u, hu, ?_⟩
    unfold tcpReceive
    rw [get_bind, bind_ok hu]
    rfl
  · rw [hdrop] at hw
    rw [hpadded, List.drop_length, List.append_nil] at hc
    obtain ⟨u, hu⟩ := hreceive t b held all exts segment ho hs (hw.length.trans hseg) hc
    have hne := checkSum_replaced hw (by change 12 % 2 = 0; rfl) (by rw [length_append, hseg]; change 12 + _ ≤ _; omega) hzero
    refine ⟨_, u, hne, hu, ?_⟩
    unfold tcpReceive
    rw [get_bind, bind_ok hu]
    dsimp only
    rw [if_pos hne]
    rfl

/-- What a host hands on to another one passes the tests there, and does not when one word has been replaced. -/
theorem checksums_verified (ho : Own s held all exts) (hs : s.Spare 3) (hip : checkIp cfg ip = true)
    (hdst : cfg'.ipaddr = ip) :
    (∀ protocol data, data.length + 34 ≤ 2048 → ∃ packet,
      Hands cfg (nextHop cfg ip) packet (ipTransmit cfg ip data protocol) () s ∧ packet.drop 20 = data ∧
        IpChecked cfg cfg' packet) ∧
    (∀ srcPort dstPort data, data.length + 42 ≤ 2048 → ∃ packet,
      Hands cfg (nextHop cfg ip) packet (udpTransmit cfg ip srcPort dstPort data) 0 s ∧ packet.drop 28 = data ∧
        IpChecked cfg cfg' packet ∧ UdpChecked cfg cfg' packet) ∧
    (∀ p : TcpSend, p.dstIp = ip → p.data.length + 54 ≤ 2048 → ∃ packet,
      Hands cfg (nextHop cfg ip) packet (tcpTransmit cfg p) 0 s ∧ packet.drop 40 = p.payload ∧
        IpChecked cfg cfg' packet ∧ TcpChecked cfg cfg' packet) ∧
    ∀ s' held' all' exts' mac packet, Own s' held' all' exts' → s'.Spare 2 → packet.length + 14 ≤ 2048 → ∃ b t,
      Own t (b ::ₘ held') all' exts' ∧ t.Spare 1 ∧ t.content b = padded packet ∧
        ethernetReceive cfg' (ethernetFrame cfg mac protoIp packet) s' = ipReceive cfg' b t := by
  refine ⟨fun protocol data hlen => ?_, fun srcPort dstPort data hlen => ?_, ?_, ?_⟩
  · have htwo : s.Spare 2 := ⟨Nat.le_of_succ_le hs.1, Nat.le_of_succ_le hs.2⟩
    exact ⟨_, ipTransmit_hands ho (htwo.frameLens hlen) hip protocol, drop_left' (length_ipHeader _ _ _ _ _),
      ipChecked_ipPacket⟩
  · obtain ⟨id, hid⟩ := udpTransmit_hands ho hs hip hlen srcPort dstPort
    refine ⟨_, hid, ?_, ipChecked_ipPacket, udpChecked_udpDatagram hdst hlen⟩
    unfold ipPacket udpDatagram
    rw [← append_assoc]
    exact drop_left' rfl
  · rintro p rfl hlen
    obtain ⟨id, hid⟩ := tcpTransmit_hands ho hs hip hlen
    refine ⟨_, hid, ?_, ipChecked_ipPacket, tcpChecked_tcpSegment hdst hlen⟩
    unfold ipPacket tcpSegment
    rw [← append_assoc]
    exact drop_left' rfl
  · intro s' held' all' exts' mac packet ho' hs' hlen
    exact ethernetReceive_eq ho' hs' hlen

end

def sender : Net := { host with extBuffers := [0, 1, 2] }

theorem sender_booted : sender.Booted :=
  ⟨by decide, by decide, rfl, fun _ => ⟨rfl, rfl⟩, fun _ => ⟨rfl, rfl⟩, fun _ => rfl⟩

theorem checksums_verified_three : ∃ packet, Hands hostCfg (nextHop hostCfg 0xc0a80103) packet
    (udpTransmit hostCfg 0xc0a80103 1000 53 [1, 2, 3]) 0 sender ∧ packet.drop 28 = [1, 2, 3] ∧
      UdpChecked hostCfg { hostCfg with ipaddr := 0xc0a80103 } packet := by
  obtain ⟨all, exts, ho⟩ := sender_booted.inv
  have hs : sender.Spare 3 := ⟨by decide, by decide⟩
  have hdst : ({ hostCfg with ipaddr := 0xc0a80103 } : NetCfg).ipaddr = 0xc0a80103 := rfl
  have hverified := checksums_verified ho hs (show checkIp hostCfg 0xc0a80103 = true by decide) hdst
  obtain ⟨packet, hpacket, hdata, -, hudp⟩ := hverified.2.1 1000 53 [1, 2, 3] (by decide)
  exact ⟨packet, hpacket, hdata, hudp⟩

/-- A call returns 0 and has given the card one frame with a segment that carries the payload behind its header, or it
fails and has sent nothing. -/
def SentWhole (cfg : NetCfg) (ip : Word) (protocol : Byte) (segment : List Byte) (hdr : Nat) (payload : List Byte)
    (m : NetProg Int) (s : Net) : Prop :=
  Ends (fun _ => False) m (fun r t => r = 0 ∧ segment.drop hdr = payload ∧
    (∃ mac id, s.arp.lookupCache (nextHop cfg ip) = some mac ∧
      t.frames = s.frames ++ [ethernetFrame cfg mac protoIp (ipPacket cfg id ip protocol segment)]) ∨
    r < 0 ∧ t.frames = s.frames) s

/-- The next host is known, and there are buffers for a segment and its headers. -/
structure Net.Sendable (cfg : NetCfg) (s : Net) (ip : Word) (len : Nat) : Prop where
  valid : checkIp cfg ip = true
  hop : ∃ mac, s.arp.lookupCache (nextHop cfg ip) = some mac ∧ mac ≠ cfg.ethAddr
  affords : s.Affords ((len + 12) :: frameLens len)

section

variable {cfg : NetCfg} {s t : Net} {ip : Word} {protocol : Byte} {segment sent payload : List Byte} {len hdr : Nat}
  {m : NetProg Int} {held all exts : Multiset Nat}

theorem length_ethernetFrame (cfg : NetCfg) (mac : Mac) (protocol : Half) (data : List Byte) :
    (ethernetFrame cfg mac protocol data).length = 14 + max 46 data.length := by
  unfold ethernetFrame padded
  rw [length_append, length_append, length_replicate, show (ethernetHdr mac cfg.ethAddr (ntohs protocol)).length = 14 by
    simp [ethernetHdr, macBytes, le16]]
  omega

/-- What is handed to `ip_t::transmit` is the segment, or the segment is longer than any buffer or lacks the payload. -/
theorem sentWhole_iff (hc : Called s t (len + 12) all exts) (hlen : len + 12 ≤ 2048)
    (heq : m s = (ipTransmit cfg ip sent protocol >>= fun _ => pure 0) t) (hsmall : sent.length ≤ 2048)
    (hsent : segment.drop hdr = payload → sent = segment ∧ segment.length = len ∨ 2048 < segment.length) :
    SentWhole cfg ip protocol segment hdr payload m s ↔
      segment.length = len ∧ segment.drop hdr = payload ∧ s.Sendable cfg ip len := by
  obtain ⟨held', ho⟩ := hc.own
  unfold SentWhole
  rw [ends_congr heq, ends_bind]
  simp only [ends_pure]
  constructor
  · intro h
    obtain ⟨_, w, hm, hpost⟩ := h.returns
    obtain ⟨-, hdrop, mac, id, hmac, hframes⟩ : _ ∧ _ ∧ _ := hpost.resolve_right fun h => absurd h.1 (Int.lt_irrefl 0)
    have hends := (ends_ipTransmit ho (hc.arp ▸ hmac) (show sent.length + 20 < 0x100000000 by omega) protocol).of_ok hm
    by_cases hpass : t.Passable cfg ip mac sent.length
    · have hframe := hends.sent hpass
      rw [hframes, hc.frames, append_cancel_left_eq, cons.injEq] at hframe
      have hlength := congrArg length hframe.1
      rw [length_ethernetFrame, length_ethernetFrame, length_ipPacket, length_ipPacket] at hlength
      obtain ⟨rfl, rfl⟩ := (hsent hdrop).resolve_right (by omega)
      exact ⟨rfl, hdrop, hpass.valid, ⟨mac, hmac, hpass.other⟩, (hc.affords hlen).mpr hpass.affords⟩
    · have hframe := congrArg length (hends.none hpass)
      rw [hframes, hc.frames, length_append] at hframe
      exact absurd hframe (Nat.succ_ne_self _)
  · rintro ⟨hseg, hdrop, h⟩
    obtain ⟨rfl, -⟩ := (hsent hdrop).resolve_right (by omega)
    obtain ⟨mac, hmac, hne⟩ := h.hop
    rw [← hseg] at h hlen hc
    refine (ends_ipTransmit ho (hc.arp ▸ hmac) (by omega) protocol).imp fun _ w hw =>
      Or.inl ⟨trivial, hdrop, mac, t.nextId, hmac, ?_⟩
    rw [hw.sent ⟨h.valid, hne, (hc.affords hlen).mp h.affords⟩, hc.frames]

theorem sentWhole_refused {k : Option Nat → NetProg Int} (h : ¬s.Alloc len) (hk : k none = pure (-1)) :
    SentWhole cfg ip protocol segment hdr payload (allocNetBuffer len >>= k) s := by
  refine (ends_congr (alloc_none_bind h k)).mpr ?_
  rw [hk]
  exact Or.inr ⟨by decide, rfl⟩

theorem not_sendable_of_long (h : 2048 < len) : ¬s.Sendable cfg ip len := fun hs => by
  have := hs.affords.alloc.1
  omega

/-- A payload is sent as a whole or refused just where there are buffers for it and its headers on the way to a known
host, or where there is none for the first of them. -/
theorem transmit_whole (ho : Own s held all exts) :
    (∀ srcPort dstPort data, SentWhole cfg ip 17 (udpDatagram cfg ip srcPort dstPort data) 8 data
      (udpTransmit cfg ip srcPort dstPort data) s ↔
        ¬s.Alloc ((data.length + 8) % 0x10000 + 12) ∨ s.Sendable cfg ip (data.length + 8)) ∧
    ∀ p : TcpSend, p.dstIp = ip → (SentWhole cfg ip 6 (tcpSegment cfg p) 20
      (p.data ++ List.replicate (6 - p.data.length) 0) (tcpTransmit cfg p) s ↔
        ¬s.Alloc (p.total + 12) ∨ s.Sendable cfg ip (max (p.data.length + 20) 26)) := by
  refine ⟨fun srcPort dstPort data => ?_, ?_⟩
  · by_cases ha : s.Alloc ((data.length + 8) % 0x10000 + 12)
    · obtain ⟨t, sent, hc, hsent, hsmall, heq⟩ := udpTransmit_eq cfg ho ha ip srcPort dstPort
      have hlength : (udpDatagram cfg ip srcPort dstPort data).length = data.length + 8 := by
        unfold udpDatagram
        exact length_append.trans (Nat.add_comm 8 _)
      have hdrop : (udpDatagram cfg ip srcPort dstPort data).drop 8 = data := by
        unfold udpDatagram
        exact drop_left' rfl
      rw [or_iff_right (fun h => h ha)]
      by_cases hwrap : data.length + 8 < 0x10000
      · rw [Nat.mod_eq_of_lt hwrap] at hc ha
        rw [sentWhole_iff hc ha.1 heq hsmall fun _ => Or.inl ⟨hsent hwrap, hlength⟩]
        exact ⟨fun h => h.2.2, fun h => ⟨hlength, hdrop, h⟩⟩
      · rw [sentWhole_iff hc ha.1 heq hsmall fun _ => Or.inr (by omega)]
        have hlen := ha.1
        exact ⟨fun h => absurd h.1 (by omega), fun h => absurd h (not_sendable_of_long (by omega))⟩
    · exact ⟨fun _ => Or.inl ha, fun _ => sentWhole_refused ha rfl⟩
  · rintro p rfl
    by_cases ha : s.Alloc (p.total + 12)
    · obtain ⟨t, hc, heq⟩ := tcpTransmit_eq cfg ho ha
      have hlen := ha.1
      have hpayload : (tcpSegment cfg p).drop 20 = p.payload := by
        unfold tcpSegment
        exact drop_left' rfl
      have hlength : (tcpSegment cfg p).length = 20 + p.payload.length := by
        unfold tcpSegment
        exact length_append
      have htcp : p.tcpLen = (p.data.length + 20) % 2 ^ 16 := rfl
      have htotal : p.total = max p.tcpLen 26 := rfl
      unfold TcpSend.payload at hpayload hlength
      rw [or_iff_right (fun h => h ha)]
      by_cases hwrap : p.data.length + 20 < 2 ^ 16
      · rw [if_pos hwrap] at hpayload hlength
        rw [Nat.mod_eq_of_lt hwrap] at htcp
        rw [length_append, length_replicate] at hlength
        have hmax : max (p.data.length + 20) 26 = p.total := by omega
        have hpad : p.total - p.tcpLen = 6 - p.data.length := by omega
        rw [sentWhole_iff hc hlen heq (by omega) fun _ => Or.inl ⟨rfl, by omega⟩, hmax]
        exact ⟨fun h => h.2.2, fun h => ⟨by omega, hpad ▸ hpayload, h⟩⟩
      · rw [if_neg hwrap, nil_append] at hpayload hlength
        rw [length_replicate] at hlength
        have hlost : (tcpSegment cfg p).drop 20 ≠ p.data ++ List.replicate (6 - p.data.length) 0 := by
          rw [hpayload]
          intro h
          have hcount := congrArg length h
          rw [length_replicate, length_append] at hcount
          omega
        rw [sentWhole_iff hc hlen heq (by omega) fun h => absurd h hlost]
        exact ⟨fun h => absurd h.2.1 hlost, fun h => absurd h (not_sendable_of_long (by omega))⟩
    · exact ⟨fun _ => Or.inl ha, fun _ => sentWhole_refused ha rfl⟩

end

def knowing : Net := sender.setArp { Arp.init with cache := [(0xc0a80103, fun _ => 2)] }

theorem transmit_whole_three :
    SentWhole hostCfg 0xc0a80103 17 (udpDatagram hostCfg 0xc0a80103 1000 53 [1, 2, 3]) 8 [1, 2, 3]
      (udpTransmit hostCfg 0xc0a80103 1000 53 [1, 2, 3]) knowing ∧
    ¬SentWhole hostCfg 0xc0a80103 17 (udpDatagram hostCfg 0xc0a80103 1000 53 (List.replicate 2007 0)) 8
      (List.replicate 2007 0) (udpTransmit hostCfg 0xc0a80103 1000 53 (List.replicate 2007 0)) knowing := by
  obtain ⟨all, exts, ho⟩ := sender_booted.inv
  have hown : knowing.Own _ all exts := own_setArp (a := { Arp.init with cache := [(0xc0a80103, fun _ => 2)] }) ho rfl
  constructor
  · refine ((transmit_whole hown).1 1000 53 [1, 2, 3]).mpr (Or.inr ⟨by decide, ⟨fun _ => 2, rfl, fun h => ?_⟩, ?_⟩)
    · exact absurd (congrFun h 0) (by decide)
    · exact ⟨by decide, by decide, by decide⟩
  · -- the frame would take 2049 bytes
    rw [(transmit_whole hown).1 1000 53, length_replicate]
    rintro (hnone | hsend)
    · exact hnone ⟨by decide, by decide, fun _ => by decide⟩
    · exact absurd (hsend.affords.small 2049 (by decide)) (by decide)

/-- With one buffer left the datagram is lost in `ip_t::transmit`, and `udp_t::transmit` returns 0. -/
theorem transmit_lost : ((udpTransmit hostCfg 0xc0a80103 1000 53 [1, 2, 3] { knowing with netBuffers := [0] }).toOption.map
    fun x => (x.1, x.2.frames)) = some (0, []) := by
  decide +kernel

/-- An echo request is answered, with its own numbers, just where its data adds up to zero: the sender sums up the
header, and the receiver all that came. -/
theorem echo_request_answered {id seq : Half} {data : List Byte} {s : Net} {b : Nat} (cfg : NetCfg) (ip : Word)
    (h : s.content b = icmpEchoHdr 8 (htons id) (htons seq) (checkSum (icmpEchoHdr 8 (htons id) (htons seq) 0)) ++ data)
    (hlen : data.length ≤ 65528) : icmpReceive cfg b ip s =
      if sum16 data % 65535 = 0 then (discard (echoReply cfg ip id seq true []) : NetProg Unit) s else .ok ((), s) := by
  have hhdr : ∀ sum, icmpEchoHdr 8 (htons id) (htons seq) sum = [8, 0] ++ le16 sum ++ (le16 (htons id) ++ le16 (htons seq)) :=
    fun _ => List.append_assoc _ _ _
  have hzero := @checkSum_stored [8, 0] (le16 (htons id) ++ le16 (htons seq)) rfl (show 8 ≤ 65536 by omega)
  rw [hhdr, hhdr] at h
  generalize checkSum ([8, 0] ++ le16 0 ++ (le16 (htons id) ++ le16 (htons seq))) = sum at h hzero
  have htype : s.view b 0 = 8 := @view_middle _ _ [] _ [8, 0] 0 (by rw [h, List.append_assoc, List.append_assoc]; rfl) (by decide)
  have hid := @getHalf_view s b ([8, 0] ++ le16 sum) (le16 (htons seq) ++ data) (htons id)
    (by simp only [h, List.append_assoc])
  have hseq := @getHalf_view s b ([8, 0] ++ le16 sum ++ le16 (htons id)) data (htons seq)
    (by simp only [h, List.append_assoc])
  have hcheck : checkSum (s.content b) = 0 ↔ sum16 data % 65535 = 0 := by
    have hlength : ([8, 0] ++ le16 sum ++ (le16 (htons id) ++ le16 (htons seq))).length = 8 := rfl
    rw [checkSum_eq_zero_iff (by omega)] at hzero
    rw [h, checkSum_eq_zero_iff (by rw [List.length_append]; omega), sum16_append (by omega)]
    omega
  unfold icmpReceive echoRequestReceive
  rw [get_bind, if_pos htype, get_bind, show getHalf (s.view b) 4 = _ from hid, show getHalf (s.view b) 6 = _ from hseq,
    ntohs_htons, ntohs_htons]
  split_ifs with hsum hd hd
  · exact absurd (hcheck.mpr hd) hsum
  · rfl
  · rfl
  · exact absurd (hcheck.mp (not_not.mp hsum)) hd

/-- The host with a buffer that holds an echo request with the data. -/
def echoHost (data : List Byte) : Net :=
  (host.append 0 (icmpEchoHdr 8 (htons 2) (htons 3) (checkSum (icmpEchoHdr 8 (htons 2) (htons 3) 0)) ++ data)).2

/-- Data that adds up to 65535 is answered; data of one byte is dropped. -/
theorem echo_request_answered_data :
    icmpReceive hostCfg 0 1 (echoHost [0xfe, 0xff, 1, 0]) =
      (discard (echoReply hostCfg 1 2 3 true []) : NetProg Unit) (echoHost [0xfe, 0xff, 1, 0]) ∧
    icmpReceive hostCfg 0 1 (echoHost [7]) = .ok ((), echoHost [7]) :=
  ⟨@echo_request_answered 2 3 [0xfe, 0xff, 1, 0] (echoHost _) 0 hostCfg 1 (by decide +kernel) (by decide),
    @echo_request_answered 2 3 [7] (echoHost _) 0 hostCfg 1 (by decide +kernel) (by decide)⟩

end BabyOS
