import BabyOS.NetReceive

open Function

namespace BabyOS

open Net

def TcpHdr.withSum (h : TcpHdr) (sum : Half) : List Byte :=
  le16 h.srcPort ++ le16 h.dstPort ++ le32 h.seqNo ++ le32 h.ackNo ++ [0x50, h.flags.toByte] ++ le16 (htons 1) ++
    le16 sum ++ le16 0

def udpDatagram (cfg : NetCfg) (dstIp : Word) (srcPort dstPort : Half) (data : List Byte) : List Byte :=
  let total := htons (.ofNat 16 (data.length + 8))
  let hdr := udpHdr (htons srcPort) (htons dstPort) total
  hdr (checkSum (pseudoHdr (htonl cfg.ipaddr) (htonl dstIp) 17 total ++ hdr 0 ++ data)) ++ data

def tcpSegment (cfg : NetCfg) (p : TcpSend) : List Byte :=
  p.hdr.withSum (checkSum (pseudoHdr (htonl cfg.ipaddr) (htonl p.dstIp) 6 (htons (.ofNat 16 p.total)) ++
    p.hdr.withSum 0 ++ p.payload)) ++ p.payload

def ipHeader (cfg : NetCfg) (id : Half) (ip : Word) (protocol : Byte) (len : Nat) : List Byte :=
  let hdr := ipHdr (htons (.ofNat 16 (len + 20))) (htons id) protocol (htonl cfg.ipaddr) (htonl ip)
  hdr (checkSum (hdr 0))

def ipPacket (cfg : NetCfg) (id : Half) (ip : Word) (protocol : Byte) (data : List Byte) : List Byte :=
  ipHeader cfg id ip protocol data.length ++ data

def padded (data : List Byte) : List Byte := data ++ List.replicate (46 - data.length) 0

def ethernetFrame (cfg : NetCfg) (mac : Mac) (protocol : Half) (data : List Byte) : List Byte :=
  ethernetHdr mac cfg.ethAddr (ntohs protocol) ++ padded data

namespace Net

theorem Still.trans {s t u : Net} (h : Still s t) (h' : Still t u) : Still s u :=
  ⟨h'.netBuffers.trans h.netBuffers, h'.extBuffers.trans h.extBuffers, h'.arp.trans h.arp, h'.socks.trans h.socks,
    fun b => (h'.ext b).trans (h.ext b)⟩

/-- A buffer holds some bytes and has room for more; all else is as in another state. -/
structure Filled (s t : Net) (b : Nat) (bs : List Byte) (room : Nat) : Prop where
  still : Still s t
  frames : t.frames = s.frames
  content : t.content b = bs
  left : (t.bufs b).left = room

section

variable {s t : Net} {b len room : Nat} {bs cs front back : List Byte}

theorem setArea_frames (s : Net) (b : Nat) (f : Nat → Byte) : (s.setArea b f).frames = s.frames := by
  unfold setArea
  cases (s.bufs b).ext with
  | none => rfl
  | some e => rfl

theorem length_content (s : Net) (b : Nat) : (s.content b).length = (s.bufs b).dataLen := length_bytes _ _

theorem view_eq_getElem {i : Nat} (h : s.content b = bs) (hi : i < bs.length) : s.view b i = bs[i] := by
  subst h
  exact (getElem_bytes hi).symm

theorem bytes_view (h : s.content b = front ++ back) : bytes (s.view b) front.length = front := by
  apply List.ext_getElem
  · exact length_bytes _ _
  · intro i hi hi'
    rw [getElem_bytes, view_eq_getElem h (by rw [List.length_append]; omega), List.getElem_append_left hi']

theorem view_middle {mid : List Byte} {k : Nat} (h : s.content b = front ++ mid ++ back) (hk : k < mid.length) :
    s.view b (front.length + k) = mid[k] := by
  have hin : front.length + k < (front ++ mid).length := by
    rw [List.length_append]
    omega
  rw [view_eq_getElem h (by rw [List.length_append]; omega), List.getElem_append_left hin,
    List.getElem_append_right (Nat.le_add_right _ _)]
  simp only [Nat.add_sub_cancel_left]

theorem getHalf_view {w : Half} (h : s.content b = front ++ le16 w ++ back) : getHalf (s.view b) front.length = w := by
  refine getHalf_eq fun k hk => ?_
  rw [view_middle h hk]
  rcases k with _ | _ | k
  · rfl
  · rfl
  · omega

theorem getWord_view {w : Word} (h : s.content b = front ++ le32 w ++ back) : getWord (s.view b) front.length = w := by
  refine getWord_eq fun k hk => ?_
  rw [view_middle h hk]
  rcases k with _ | _ | _ | _ | k
  · rfl
  · rfl
  · rfl
  · rfl
  · omega

theorem Took.filled (h : Took s len b t) (hl : len ≤ 2048) : ∃ room, len ≤ room ∧ Filled t t b [] room := by
  refine ⟨_, ?_, Still.refl t, rfl, h.content, h.left⟩
  split
  · exact hl
  · omega

theorem Filled.append (h : Filled s t b bs room) (cs : List Byte) (hl : cs.length ≤ room) :
    Filled s (t.append b cs).2 b (bs ++ cs) (room - cs.length) := by
  have hfit : cs.length ≤ (t.bufs b).left := by
    rw [h.left]
    exact hl
  have hframes : (t.append b cs).2.frames = t.frames := by
    unfold Net.append
    rw [if_neg (Nat.not_lt.mpr hfit)]
    exact setArea_frames t b _
  refine ⟨h.still.trans (still_append t b cs), hframes.trans h.frames, ?_, ?_⟩
  · rw [append_content hfit, h.content]
  · rw [append_bufs hfit, h.left]

theorem Filled.append_refused (h : Filled s t b bs room) {cs : List Byte} (hl : room < cs.length) :
    Filled s (t.append b cs).2 b bs room := by
  unfold Net.append
  rw [if_pos (by rw [h.left]; exact hl)]
  exact h

theorem Took.room_le (h : Took s len b t) (hf : Filled t t b [] room) : 240 ≤ room ∧ room ≤ 2048 := by
  rw [← hf.left, h.left]
  split
  · omega
  · omega

theorem append_nil (s : Net) (b : Nat) : (s.append b []).2 = s := by
  have hwrite : write (s.area b) ((s.bufs b).data + (s.bufs b).dataLen) [] = s.area b := by
    funext i
    exact if_neg fun h => absurd h.2 (Nat.not_lt.mpr h.1)
  have harea : s.setArea b (s.area b) = s := by
    unfold setArea area
    cases (s.bufs b).ext with
    | none | some e => simp only [update_eq_self]
  unfold append
  rw [if_neg (show ¬(s.bufs b).left < ([] : List Byte).length from Nat.not_lt_zero _), hwrite, harea]
  unfold setBuf
  exact congrArg (fun f => { s with bufs := f }) (update_eq_self b s.bufs)

theorem Filled.store {old : List Byte} (h : Filled s t b (front ++ old ++ back) room) (cs : List Byte)
    (hl : old.length = cs.length) : Filled s (t.store b front.length cs) b (front ++ cs ++ back) room := by
  have hbufs : (t.store b front.length cs).bufs = t.bufs := setArea_bufs _ _ _
  have hview : (t.store b front.length cs).view b = write (t.view b) front.length cs := by
    funext i
    unfold Net.view
    rw [hbufs]
    unfold Net.store
    rw [area_setArea]
    unfold write
    by_cases hi : front.length ≤ i ∧ i < front.length + cs.length
    · rw [if_pos hi, if_pos (by omega)]
      congr 1
      omega
    · rw [if_neg hi, if_neg (by omega)]
  have hlen : (t.bufs b).dataLen = (front ++ old ++ back).length := by
    rw [← h.content, length_content]
  refine ⟨h.still.trans (still_setArea t b _).1, (setArea_frames t b _).trans h.frames, ?_, ?_⟩
  · unfold Net.content
    rw [hview, hbufs, hlen]
    apply List.ext_getElem
    · rw [length_bytes]
      simp only [List.length_append, hl]
    · intro i hi hi'
      rw [getElem_bytes]
      rw [length_bytes] at hi
      by_cases hf : i < front.length
      · have hold : i < (front ++ old).length := by
          rw [List.length_append]
          omega
        have hnew : i < (front ++ cs).length := by
          rw [List.length_append]
          omega
        rw [write_of_lt hf, view_eq_getElem h.content hi, List.getElem_append_left hold, List.getElem_append_left hf,
          List.getElem_append_left hnew, List.getElem_append_left hf]
      · by_cases hc : i < front.length + cs.length
        · obtain ⟨j, rfl⟩ := Nat.exists_eq_add_of_le (Nat.le_of_not_lt hf)
          have hj : j < cs.length := by omega
          rw [write_add hj, List.getElem_append_left (by rw [List.length_append]; exact hc),
            List.getElem_append_right (Nat.le_add_right _ _)]
          simp only [Nat.add_sub_cancel_left]
        · rw [write_of_ge (Nat.le_of_not_lt hc), view_eq_getElem h.content hi,
            List.getElem_append_right (by rw [List.length_append]; omega),
            List.getElem_append_right (by rw [List.length_append]; omega)]
          simp only [List.length_append, hl]
  · rw [hbufs]
    exact h.left

theorem Filled.popFront (h : Filled s t b (front ++ back) room) :
    Filled s (t.popFront b front.length).2 b back room := by
  have hlen : (t.bufs b).dataLen = front.length + back.length := by
    rw [← length_content, h.content, List.length_append]
  have hpop : (t.popFront b front.length).2 =
      t.setBuf b ⟨back.length, (t.bufs b).data + front.length, (t.bufs b).ext, (t.bufs b).left⟩ := by
    unfold Net.popFront
    dsimp only
    rw [hlen, if_neg (by omega), Nat.add_sub_cancel_left]
  refine ⟨h.still.trans (still_popFront t b _), ?_, ?_, ?_⟩
  · rw [hpop]
    exact h.frames
  · rw [popFront_content (by omega), h.content, List.drop_left]
  · rw [hpop, setBuf_self]
    exact h.left

def Spare (s : Net) (n : Nat) : Prop := n ≤ s.netBuffers.length ∧ n ≤ s.extBuffers.length

theorem Spare.alloc {n : Nat} (h : s.Spare (n + 1)) (hl : len ≤ 2048) : s.Alloc len := by
  refine ⟨hl, ?_, fun _ => ?_⟩
  · intro hn
    have := h.1
    rw [hn] at this
    exact absurd this (Nat.not_succ_le_zero n)
  · intro he
    have := h.2
    rw [he] at this
    exact absurd this (Nat.not_succ_le_zero n)

/-- There are buffers for allocations of these lengths, one after another. -/
structure Affords (s : Net) (lens : List Nat) : Prop where
  small : ∀ l ∈ lens, l ≤ 2048
  net : lens.length ≤ s.netBuffers.length
  ext : lens.countP (240 < ·) ≤ s.extBuffers.length

theorem Spare.affords {n : Nat} {lens : List Nat} (h : s.Spare n) (hn : lens.length ≤ n) (hl : ∀ l ∈ lens, l ≤ 2048) :
    s.Affords lens :=
  ⟨hl, hn.trans h.1, List.countP_le_length.trans (hn.trans h.2)⟩

theorem Affords.alloc {lens : List Nat} (h : s.Affords (len :: lens)) : s.Alloc len := by
  refine ⟨h.small len (List.mem_cons_self ..), fun hnil => ?_, fun hbig hnil => ?_⟩
  · have hnet := h.net
    rw [hnil] at hnet
    exact absurd hnet (Nat.not_succ_le_zero _)
  · have hext := h.ext
    rw [hnil, List.countP_cons_of_pos (by simpa using hbig)] at hext
    exact absurd hext (Nat.not_succ_le_zero _)

theorem Alloc.affords (h : s.Alloc len) : s.Affords [len] := by
  refine ⟨fun l hl => ?_, List.length_pos_iff.mpr h.2.1, ?_⟩
  · rw [List.mem_singleton.mp hl]
    exact h.1
  · by_cases hbig : 240 < len
    · exact List.countP_le_length.trans (List.length_pos_iff.mpr (h.2.2 hbig))
    · rw [List.countP_cons_of_neg (by simpa using hbig)]
      exact Nat.zero_le _

/-- A buffer of the length has been taken for a call further down; nothing has been sent yet. -/
structure Called (s t : Net) (len : Nat) (all exts : Multiset Nat) : Prop where
  arp : t.arp = s.arp
  frames : t.frames = s.frames
  net : t.netBuffers.length + 1 = s.netBuffers.length
  ext : t.extBuffers.length + (if 240 < len then 1 else 0) = s.extBuffers.length
  own : ∃ held, Own t held all exts

theorem Called.spare {n : Nat} {all exts : Multiset Nat} (h : Called s t len all exts) (hs : s.Spare (n + 1)) :
    t.Spare n := by
  obtain ⟨hn, he⟩ := hs
  have hnet := h.net
  have hext := h.ext
  split_ifs at hext
  · exact ⟨by omega, by omega⟩
  · exact ⟨by omega, by omega⟩

theorem Called.affords {lens : List Nat} {all exts : Multiset Nat} (h : Called s t len all exts) (hl : len ≤ 2048) :
    s.Affords (len :: lens) ↔ t.Affords lens := by
  have hnet := h.net
  have hext := h.ext
  have hcount : (len :: lens).countP (240 < ·) = lens.countP (240 < ·) + if 240 < len then 1 else 0 := by
    rw [List.countP_cons]
    simp only [decide_eq_true_eq]
  constructor
  · rintro ⟨h1, h2, h3⟩
    rw [List.length_cons] at h2
    exact ⟨fun l hm => h1 l (List.mem_cons_of_mem _ hm), by omega, by omega⟩
  · rintro ⟨h1, h2, h3⟩
    exact ⟨List.forall_mem_cons.mpr ⟨hl, h1⟩, by rw [List.length_cons]; omega, by omega⟩

theorem Took.length_ext (h : Took s len b t) : (t.bufs b).ext.toList.length = if 240 < len then 1 else 0 := by
  have hleft := h.left
  rw [h.buf] at hleft
  cases hext : (t.bufs b).ext with
  | none =>
    rw [hext] at hleft
    split_ifs at hleft ⊢
    · cases hleft
    · rfl
  | some e =>
    rw [hext] at hleft
    split_ifs at hleft ⊢
    · rfl
    · cases hleft

theorem Filled.called {u : Net} {held all exts : Multiset Nat} (h : Filled t u b bs room) (ht : Took s len b t)
    (ho : Own s held all exts) : Called s u len all exts := by
  refine ⟨h.still.arp.trans ht.arp, h.frames.trans ht.frames, ?_, ?_, _, (ho.took ht).still h.still⟩
  · rw [h.still.netBuffers, ht.netBuffers, List.length_cons]
  · rw [h.still.extBuffers, ht.extBuffers, List.length_append, ht.length_ext, Nat.add_comm]

end

end Net

section

variable {α : Type} {cfg : NetCfg} {s : Net} {b len n : Nat} {bs : List Byte} {held all exts : Multiset Nat}

theorem alloc_bind (ha : s.Alloc len) : ∃ b t, Took s len b t ∧
    ∀ k : Option Nat → NetProg α, (allocNetBuffer len >>= k) s = k (some b) t := by
  rcases allocNetBuffer_cases s len with ⟨hn, -⟩ | ⟨-, b, t, hs, ht⟩
  · exact absurd ha hn
  · exact ⟨b, t, ht, fun k => bind_ok (congrArg Except.ok hs)⟩

theorem alloc_none_bind (ha : ¬s.Alloc len) (k : Option Nat → NetProg α) : (allocNetBuffer len >>= k) s = k none s :=
  bind_ok (congrArg Except.ok ((allocNetBuffer_cases s len).resolve_right fun h => ha h.1).2)

theorem append_bind (k : Unit → NetProg α) : (append b bs >>= k) s = k () (s.append b bs).2 := rfl

theorem append_if_bind (k : Unit → NetProg α) :
    (if bs ≠ [] then append b bs >>= k else k ()) s = k () (s.append b bs).2 := by
  by_cases h : bs = []
  · rw [if_neg (fun hne => hne h), h, append_nil]
  · rw [if_pos h]
    rfl

theorem appendZero_if_bind {m : Nat} (k : Unit → NetProg α) :
    (if n < m then appendZero b (m - n) >>= k else k ()) s = k () (s.append b (List.replicate (m - n) 0)).2 := by
  by_cases h : n < m
  · rw [if_pos h]
    rfl
  · rw [if_neg h, Nat.sub_eq_zero_of_le (Nat.le_of_not_lt h), List.replicate_zero, append_nil]

theorem store_bind (k : Unit → NetProg α) : (store b n bs >>= k) s = k () (s.store b n bs) := rfl

theorem popFront_bind (k : Unit → NetProg α) : (popFront b n >>= k) s = k () (s.popFront b n).2 := rfl

theorem get_bind (k : Net → NetProg α) : (get >>= k) s = k s s := rfl

variable {t : Net} {ps data : List Byte} {p : TcpSend} {mac : Mac}

theorem sealed_eq (cfg : NetCfg) {front back : List Byte} {room : Nat} (h : Filled s t b (ps ++ front ++ le16 0 ++ back) room)
    (hps : ps.length = 12) (hn : (ps ++ front).length = n) (ip : Word) (protocol : Byte) :
    ∃ u, Filled s u b (front ++ le16 (checkSum (ps ++ front ++ le16 0 ++ back)) ++ back) room ∧ (do
      let s ← get
      store b n (le16 (checkSum (s.content b)))
      popFront b 12
      let s ← get
      ipTransmit cfg ip (s.content b) protocol
      pure 0 : NetProg Int) t =
      (ipTransmit cfg ip (front ++ le16 (checkSum (ps ++ front ++ le16 0 ++ back)) ++ back) protocol >>=
        fun _ => pure 0) u := by
  obtain ⟨sum, hsum⟩ : ∃ sum, sum = checkSum (ps ++ front ++ le16 0 ++ back) := ⟨_, rfl⟩
  have hstore := h.store (le16 sum) rfl
  rw [show ps ++ front ++ le16 sum ++ back = ps ++ (front ++ le16 sum ++ back) by simp only [List.append_assoc]] at hstore
  have hpop := hstore.popFront
  rw [hn, hps] at hpop
  refine ⟨_, by rw [← hsum]; exact hpop, ?_⟩
  rw [get_bind, store_bind, popFront_bind, get_bind, h.content, ← hsum, hpop.content]

/-- What `udp_t::transmit` hands on: a payload too long for 16 bits has not been added to the header. -/
theorem udpTransmit_eq (cfg : NetCfg) (ho : Own s held all exts) (ha : s.Alloc ((data.length + 8) % 0x10000 + 12))
    (dstIp : Word) (srcPort dstPort : Half) : ∃ t sent, Called s t ((data.length + 8) % 0x10000 + 12) all exts ∧
      (data.length + 8 < 0x10000 → sent = udpDatagram cfg dstIp srcPort dstPort data) ∧ sent.length ≤ 2048 ∧
      udpTransmit cfg dstIp srcPort dstPort data s = (ipTransmit cfg dstIp sent 17 >>= fun _ => pure 0) t := by
  have hlen := ha.1
  obtain ⟨total, htotal⟩ : ∃ total, total = (data.length + 8) % 0x10000 := ⟨_, rfl⟩
  rw [← htotal] at ha hlen ⊢
  obtain ⟨b, t, ht, hk⟩ := alloc_bind (α := Int) ha
  obtain ⟨room, hfit, h0⟩ := ht.filled hlen
  have hroom := ht.room_le h0
  obtain ⟨ps, hps⟩ : ∃ ps, ps = pseudoHdr (htonl cfg.ipaddr) (htonl dstIp) 17 (htons (.ofNat 16 total)) := ⟨_, rfl⟩
  obtain ⟨ports, hports⟩ : ∃ ports, ports = le16 (htons srcPort) ++ le16 (htons dstPort) ++
      le16 (htons (.ofNat 16 total)) := ⟨_, rfl⟩
  have hpslen : ps.length = 12 := by
    rw [hps]
    rfl
  have hportlen : ports.length = 6 := by
    rw [hports]
    rfl
  have hhdrlen : (ports ++ le16 0).length = 8 := by
    rw [List.length_append, hportlen]
    rfl
  have h1 := h0.append ps (by omega)
  have h2 := h1.append (ports ++ le16 0) (by omega)
  -- the payload fits just where its length has not wrapped
  obtain ⟨added, room', hadded, hshort, h3⟩ : ∃ added room', (data.length + 8 < 0x10000 → added = data) ∧
      added.length + 8 ≤ 2048 ∧ Filled t (((t.append b ps).2.append b (ports ++ le16 0)).2.append b data).2 b
        ([] ++ ps ++ (ports ++ le16 0) ++ added) room' := by
    by_cases hwrap : data.length + 8 < 0x10000
    · rw [Nat.mod_eq_of_lt hwrap] at htotal
      exact ⟨data, _, fun _ => rfl, by omega, h2.append data (by omega)⟩
    · have hrefused := h2.append_refused (show _ < data.length by omega)
      exact ⟨[], _, fun h => absurd h hwrap, by decide, by rw [List.append_nil]; exact hrefused⟩
  rw [show [] ++ ps ++ (ports ++ le16 0) ++ added = ps ++ ports ++ le16 0 ++ added by
    simp only [List.nil_append, List.append_assoc]] at h3
  obtain ⟨u, hu, heq⟩ := sealed_eq cfg (n := 18) h3 hpslen (by rw [List.length_append, hpslen, hportlen]) dstIp 17
  refine ⟨u, ports ++ le16 (checkSum (ps ++ ports ++ le16 0 ++ added)) ++ added, hu.called ht ho, fun hwrap => ?_, ?_, ?_⟩
  · rw [hadded hwrap]
    rw [Nat.mod_eq_of_lt hwrap] at htotal
    unfold udpDatagram udpHdr
    rw [hps, hports, htotal]
    simp only [List.append_assoc]
  · rw [List.length_append, List.length_append, hportlen]
    change 6 + 2 + added.length ≤ 2048
    omega
  · rw [← heq]
    unfold udpTransmit
    rw [← htotal, hk]
    dsimp only
    rw [append_bind, append_bind, append_bind, ← hps,
      show udpHdr (htons srcPort) (htons dstPort) (htons (.ofNat 16 total)) 0 = ports ++ le16 0 by
        rw [hports]
        rfl]

def tcpFront (p : TcpSend) : List Byte :=
  le16 p.hdr.srcPort ++ le16 p.hdr.dstPort ++ le32 p.hdr.seqNo ++ le32 p.hdr.ackNo ++ [0x50, p.hdr.flags.toByte] ++
    le16 (htons 1)

theorem length_tcpFront (p : TcpSend) : (tcpFront p).length = 16 := rfl

theorem tcpSegment_eq (cfg : NetCfg) (p : TcpSend)
    (hps : ps = pseudoHdr (htonl cfg.ipaddr) (htonl p.dstIp) 6 (htons (.ofNat 16 p.total))) :
    tcpFront p ++ le16 (checkSum (ps ++ tcpFront p ++ le16 0 ++ (le16 0 ++ p.payload))) ++ (le16 0 ++ p.payload) =
      tcpSegment cfg p := by
  unfold tcpSegment TcpHdr.withSum tcpFront
  rw [hps]
  simp only [List.append_assoc]

theorem tcpTransmit_eq (cfg : NetCfg) (ho : Own s held all exts) (ha : s.Alloc (p.total + 12)) :
    ∃ t, Called s t (p.total + 12) all exts ∧
      tcpTransmit cfg p s = (ipTransmit cfg p.dstIp (tcpSegment cfg p) 6 >>= fun _ => pure 0) t := by
  have hlen := ha.1
  have htcp : p.tcpLen = (p.data.length + 20) % 2 ^ 16 := rfl
  have htotal : p.total = max p.tcpLen 26 := rfl
  obtain ⟨b, t, ht, hk⟩ := alloc_bind (α := Int) ha
  obtain ⟨room, hfit, h0⟩ := ht.filled hlen
  have hroom := ht.room_le h0
  obtain ⟨ps, hps⟩ : ∃ ps, ps = pseudoHdr (htonl cfg.ipaddr) (htonl p.dstIp) 6 (htons (.ofNat 16 p.total)) := ⟨_, rfl⟩
  have hpslen : ps.length = 12 := by
    rw [hps]
    rfl
  have hhdr : p.hdr.toBytes = tcpFront p ++ le16 0 ++ le16 0 := rfl
  have hhdrlen : p.hdr.toBytes.length = 20 := rfl
  have h1 := h0.append ps (by omega)
  have h2 := h1.append p.hdr.toBytes (by omega)
  obtain ⟨room', h4⟩ : ∃ room', Filled t ((((t.append b ps).2.append b p.hdr.toBytes).2.append b p.data).2.append b
      (List.replicate (p.total - p.tcpLen) 0)).2 b ([] ++ ps ++ p.hdr.toBytes ++ p.payload) room' := by
    unfold TcpSend.payload
    by_cases hwrap : p.data.length + 20 < 2 ^ 16
    · rw [if_pos hwrap, ← List.append_assoc]
      rw [Nat.mod_eq_of_lt hwrap] at htcp
      have h3 := h2.append p.data (by omega)
      exact ⟨_, h3.append _ (by rw [List.length_replicate]; omega)⟩
    · rw [if_neg hwrap, List.nil_append]
      have h3 := h2.append_refused (show _ < p.data.length by omega)
      exact ⟨_, h3.append _ (by rw [List.length_replicate]; omega)⟩
  rw [hhdr, show [] ++ ps ++ (tcpFront p ++ le16 0 ++ le16 0) ++ p.payload =
    ps ++ tcpFront p ++ le16 0 ++ (le16 0 ++ p.payload) by simp only [List.nil_append, List.append_assoc]] at h4
  obtain ⟨u, hu, heq⟩ := sealed_eq cfg (n := 28) h4 hpslen (by rw [List.length_append, hpslen, length_tcpFront]) p.dstIp 6
  rw [tcpSegment_eq cfg p hps] at hu heq
  refine ⟨u, hu.called ht ho, ?_⟩
  rw [← heq]
  unfold tcpTransmit
  rw [hk]
  dsimp only
  rw [append_bind, append_bind, ← hps, hhdr, append_if_bind, appendZero_if_bind]

theorem frameLength_eq (n : Nat) : (if n < 46 then 46 else n) = max 46 n := by
  split
  · omega
  · omega

theorem ends_ethernetTransmit (ho : Own s held all exts) (ha : s.Alloc (max 46 data.length + 14))
    (hmac : mac ≠ cfg.ethAddr) (protocol : Half) :
    Ends (fun _ => False) (ethernetTransmit cfg mac protocol data)
      (fun _ t => Own t held all exts ∧ t.frames = s.frames ++ [ethernetFrame cfg mac protocol data]) s := by
  have hmax := frameLength_eq data.length
  obtain ⟨length, hlength⟩ : ∃ length, length = if data.length < 46 then 46 else data.length := ⟨_, rfl⟩
  rw [← hmax, ← hlength] at ha
  have hpad : data.length ≤ length ∧ length + 14 ≤ 2048 ∧ length - data.length = 46 - data.length := by
    have hle := ha.1
    rw [hlength] at hle ⊢
    split
    · omega
    · omega
  obtain ⟨b, t, ht, hk⟩ := alloc_bind (α := Unit) ha
  obtain ⟨room, hfit, h0⟩ := ht.filled hpad.2.1
  obtain ⟨hdr, hhdr⟩ : ∃ hdr, hdr = ethernetHdr mac cfg.ethAddr (ntohs protocol) := ⟨_, rfl⟩
  have hhdrlen : hdr.length = 14 := by
    rw [hhdr]
    simp [ethernetHdr, macBytes, le16]
  have h1 := h0.append hdr (by omega)
  have h2 := h1.append data (by omega)
  have h3 := h2.append (List.replicate (length - data.length) 0) (by rw [List.length_replicate]; omega)
  obtain ⟨u, hu⟩ : ∃ u, u = (((t.append b hdr).2.append b data).2.append b (List.replicate (length - data.length) 0)).2 :=
    ⟨_, rfl⟩
  rw [← hu] at h3
  have howns : Own u (b ::ₘ held) all exts := (ho.took ht).still h3.still
  have heq : ethernetTransmit cfg mac protocol data s = (cardTransmit b >>= fun _ => freeNetBuffer b) u := by
    unfold ethernetTransmit
    rw [if_neg hmac, ← hlength, hk]
    dsimp only
    rw [append_bind, append_bind, appendZero_if_bind, ← hhdr, ← hu]
  refine (ends_congr heq).mpr ?_
  rw [ends_bind]
  have hsent : Own { u with frames := u.frames ++ [u.content b] } (b ::ₘ held) all exts :=
    howns.still ⟨rfl, rfl, rfl, rfl, fun _ => rfl⟩
  change Ends _ (freeNetBuffer b) _ { u with frames := u.frames ++ [u.content b] }
  refine (ends_free (hsent.not_mem_netBuffers ?_)).mpr ⟨hsent.freed, ?_⟩
  · exact Multiset.mem_add.mpr (Or.inr (Multiset.mem_cons_self b held))
  · rw [(freeNetBuffer_rest _ b).2.2.2.2.2.2.2]
    change u.frames ++ [u.content b] = _
    rw [h3.frames, ht.frames, h3.content, hpad.2.2, hhdr]
    unfold ethernetFrame padded
    simp only [List.nil_append, List.append_assoc]

/-- A frame with the packet is sent where the address of the next host is known, and else a buffer with it waits
for that address. -/
def Hands (cfg : NetCfg) (hop : Word) (packet : List Byte) (m : NetProg α) (r : α) (s : Net) : Prop :=
  match s.arp.lookupCache hop with
  | some mac => mac ≠ cfg.ethAddr → Ends (fun _ => False) m
      (fun a t => a = r ∧ t.frames = s.frames ++ [ethernetFrame cfg mac protoIp packet]) s
  | none => ∃ b t, t.content b = packet ∧ t.arp = s.arp ∧ t.frames = s.frames ∧
      m s = (runArp cfg (fun a => a.addToWaitQueue hop b) >>= fun _ => pure r) t

/-- What `ip_t::transmit` does with the packet once it has a buffer for it. -/
theorem ipTransmit_eq {ip : Word} (ho : Own s held all exts) (ha : s.Alloc (data.length + 20))
    (hip : checkIp cfg ip = true) (protocol : Byte) : ∃ b u, Called s u (data.length + 20) all exts ∧
      Own u (b ::ₘ held) all exts ∧ u.content b = ipPacket cfg s.nextId ip protocol data ∧
      ipTransmit cfg ip data protocol s = (match s.arp.lookupCache (nextHop cfg ip) with
        | some mac => do
          ethernetTransmit cfg mac protoIp (ipPacket cfg s.nextId ip protocol data)
          freeNetBuffer b
        | none => runArp cfg fun a => a.addToWaitQueue (nextHop cfg ip) b) u := by
  have hlen := ha.1
  have htotal : (data.length + 20) % 0x100000000 = data.length + 20 := Nat.mod_eq_of_lt (by omega)
  obtain ⟨b, t, ht, hk⟩ := alloc_bind (α := Unit) ha
  obtain ⟨room, hfit, hempty⟩ := ht.filled (by omega)
  obtain ⟨hdr, hhdr⟩ : ∃ hdr, hdr = ipHeader cfg s.nextId ip protocol data.length := ⟨_, rfl⟩
  have hhdrlen : hdr.length = 20 := by
    rw [hhdr]
    rfl
  have h0 : Filled t { t with nextId := s.nextId + 1 } b [] room :=
    ⟨⟨rfl, rfl, rfl, rfl, fun _ => rfl⟩, rfl, hempty.content, hempty.left⟩
  have h1 := h0.append hdr (by omega)
  have h2 := h1.append data (by omega)
  obtain ⟨u, hu⟩ : ∃ u, u = (({ t with nextId := s.nextId + 1 }.append b hdr).2.append b data).2 := ⟨_, rfl⟩
  rw [← hu, List.nil_append] at h2
  have hcalled := h2.called ht ho
  have hcontent : u.content b = ipPacket cfg s.nextId ip protocol data := by
    rw [h2.content, hhdr]
    rfl
  have hraw : ipHdr (htons (.ofNat 16 (data.length + 20))) (htons s.nextId) protocol (htonl cfg.ipaddr) (htonl ip)
      (checkSum (ipHdr (htons (.ofNat 16 (data.length + 20))) (htons s.nextId) protocol (htonl cfg.ipaddr) (htonl ip)
        0)) = hdr := hhdr.symm
  refine ⟨b, u, hcalled, (ho.took ht).still h2.still, hcontent, ?_⟩
  unfold ipTransmit
  rw [if_neg (by rw [hip]; exact Bool.noConfusion), htotal, hk]
  dsimp only
  rewrite [bind_ok (a := t.nextId) (t := { t with nextId := t.nextId + 1 }) rfl, append_bind, append_bind, get_bind,
    ht.nextId, hraw, ← hu, hcontent, hcalled.arp]
  rfl

theorem length_ipPacket (cfg : NetCfg) (id : Half) (ip : Word) (protocol : Byte) (data : List Byte) :
    (ipPacket cfg id ip protocol data).length = data.length + 20 := by
  unfold ipPacket
  rw [List.length_append, Nat.add_comm]
  rfl

/-- The lengths that `ip_t::transmit` and `ethernet_t::transmit` allocate for a datagram or segment. -/
def frameLens (len : Nat) : List Nat := [len + 20, max 46 (len + 20) + 14]

theorem Net.Spare.frameLens {len : Nat} (h : s.Spare 2) (hl : len + 34 ≤ 2048) : s.Affords (frameLens len) :=
  h.affords (Nat.le_refl 2) fun l hm => by
    rcases List.mem_cons.mp hm with rfl | hm
    · omega
    · cases List.mem_singleton.mp hm
      omega

/-- `ip_t::transmit` can send the datagram to the address: there are buffers for it. -/
structure Net.Passable (cfg : NetCfg) (s : Net) (ip : Word) (mac : Mac) (len : Nat) : Prop where
  valid : checkIp cfg ip = true
  other : mac ≠ cfg.ethAddr
  affords : s.Affords (frameLens len)

/-- The frame has been sent where the condition holds, and nothing otherwise. -/
structure SentIf (c : Prop) (frame : List Byte) (s t : Net) : Prop where
  sent : c → t.frames = s.frames ++ [frame]
  none : ¬c → t.frames = s.frames

theorem ends_ipTransmit_passed {ip : Word} {u : Net} (hcalled : Called s u (data.length + 20) all exts)
    (hu : Own u (b ::ₘ held) all exts) (hl : data.length + 20 ≤ 2048) (hip : checkIp cfg ip = true) (protocol : Byte) :
    Ends (fun _ => False) (do
        ethernetTransmit cfg mac protoIp (ipPacket cfg s.nextId ip protocol data)
        freeNetBuffer b : NetProg Unit)
      (fun _ t => SentIf (s.Passable cfg ip mac data.length)
        (ethernetFrame cfg mac protoIp (ipPacket cfg s.nextId ip protocol data)) s t) u := by
  have hlength := length_ipPacket cfg s.nextId ip protocol data
  have hfree : ∀ v, Own v (b ::ₘ held) all exts → ∀ Q : Net → Prop, (∀ w, w.frames = v.frames → Q w) →
      Ends (fun _ => False) (freeNetBuffer b) (fun _ => Q) v := by
    intro v hv Q hQ
    refine (ends_free (hv.not_mem_netBuffers ?_)).mpr (hQ _ (freeNetBuffer_rest v b).2.2.2.2.2.2.2)
    exact Multiset.mem_add.mpr (Or.inr (Multiset.mem_cons_self b held))
  rw [ends_bind]
  by_cases hpass : mac ≠ cfg.ethAddr ∧ u.Alloc (max 46 (data.length + 20) + 14)
  · have hsend := ends_ethernetTransmit hu (hlength.symm ▸ hpass.2) hpass.1 protoIp
    refine hsend.imp fun _ v hv => hfree v hv.1 _ fun w hw => ⟨fun _ => ?_, fun hnot => absurd ?_ hnot⟩
    · rw [hw, hv.2, hcalled.frames]
    · exact ⟨hip, hpass.1, (hcalled.affords hl).mpr hpass.2.affords⟩
  · have hnone : ethernetTransmit cfg mac protoIp (ipPacket cfg s.nextId ip protocol data) u = .ok ((), u) := by
      unfold ethernetTransmit
      split
      · rfl
      · next hmac =>
        rw [hlength, frameLength_eq, alloc_none_bind fun ha => hpass ⟨hmac, ha⟩]
        rfl
    refine (ends_of_ok hnone).mpr (hfree u hu _ fun w hw => ⟨fun hc => absurd ?_ hpass, fun _ => ?_⟩)
    · exact ⟨hc.other, ((hcalled.affords hl).mp hc.affords).alloc⟩
    · exact hw.trans hcalled.frames

/-- With the address of the next host known, one frame is sent where all is well, and none otherwise. -/
theorem ends_ipTransmit {ip : Word} (ho : Own s held all exts) (hcache : s.arp.lookupCache (nextHop cfg ip) = some mac)
    (hsmall : data.length + 20 < 0x100000000) (protocol : Byte) :
    Ends (fun _ => False) (ipTransmit cfg ip data protocol) (fun _ t => SentIf (s.Passable cfg ip mac data.length)
      (ethernetFrame cfg mac protoIp (ipPacket cfg s.nextId ip protocol data)) s t) s := by
  by_cases h : checkIp cfg ip = true ∧ s.Alloc (data.length + 20)
  · obtain ⟨b, u, hcalled, hu, -, heq⟩ := @ipTransmit_eq _ _ _ _ _ _ _ ho h.2 h.1 protocol
    rw [hcache] at heq
    exact (ends_congr heq).mpr (ends_ipTransmit_passed hcalled hu h.2.1 h.1 protocol)
  · have hnone : ipTransmit cfg ip data protocol s = .ok ((), s) := by
      unfold ipTransmit
      split
      · rfl
      · next hip =>
        rw [Nat.mod_eq_of_lt hsmall, alloc_none_bind fun ha => h ⟨Bool.eq_true_of_not_eq_false hip, ha⟩]
        rfl
    exact (ends_of_ok hnone).mpr ⟨fun hc => absurd ⟨hc.valid, hc.affords.alloc⟩ h, fun _ => rfl⟩

theorem ipTransmit_hands {ip : Word} (ho : Own s held all exts) (ha : s.Affords (frameLens data.length))
    (hip : checkIp cfg ip = true) (protocol : Byte) :
    Hands cfg (nextHop cfg ip) (ipPacket cfg s.nextId ip protocol data) (ipTransmit cfg ip data protocol) () s := by
  unfold Hands
  cases hcache : s.arp.lookupCache (nextHop cfg ip) with
  | none =>
    obtain ⟨b, u, hcalled, -, hcontent, heq⟩ := @ipTransmit_eq _ _ _ _ _ _ _ ho ha.alloc hip protocol
    rw [hcache] at heq
    exact ⟨b, u, hcontent, hcalled.arp, hcalled.frames, by rw [bind_pure_unit]; exact heq⟩
  | some mac =>
    intro hmac
    have hlen := ha.alloc.1
    refine (ends_ipTransmit ho hcache (by omega) protocol).imp fun _ t ht => ⟨rfl, ?_⟩
    exact ht.sent ⟨hip, hmac, ha⟩

theorem Hands.of_called {m : NetProg α} {m' : NetProg Unit} {r : α} {hop : Word} {packet : List Byte}
    (hc : Called s t n all exts) (heq : m s = (m' >>= fun _ => pure r) t) (h : Hands cfg hop packet m' () t) :
    Hands cfg hop packet m r s := by
  unfold Hands at h ⊢
  rw [hc.arp] at h
  cases hcache : s.arp.lookupCache hop with
  | none =>
    rw [hcache] at h
    obtain ⟨b, u, hcontent, harp, hframes, hm⟩ := h
    refine ⟨b, u, hcontent, harp, hframes.trans hc.frames, ?_⟩
    rw [bind_pure_unit] at hm
    rw [heq]
    show Except.bind (m' t) _ = Except.bind _ _
    rw [hm]
  | some mac =>
    rw [hcache] at h
    intro hmac
    refine (ends_congr heq).mpr ?_
    rw [ends_bind]
    refine (h hmac).imp fun _ u hu => ⟨rfl, ?_⟩
    rw [hu.2, hc.frames]

theorem udpTransmit_hands {dstIp : Word} (ho : Own s held all exts) (hs : s.Spare 3)
    (hip : checkIp cfg dstIp = true) (hlen : data.length + 42 ≤ 2048) (srcPort dstPort : Half) :
    ∃ id, Hands cfg (nextHop cfg dstIp) (ipPacket cfg id dstIp 17 (udpDatagram cfg dstIp srcPort dstPort data))
      (udpTransmit cfg dstIp srcPort dstPort data) 0 s := by
  have htotal : (data.length + 8) % 0x10000 = data.length + 8 := Nat.mod_eq_of_lt (by omega)
  obtain ⟨t, sent, ht, hsent, -, heq⟩ :=
    udpTransmit_eq cfg ho (hs.alloc (show (data.length + 8) % 0x10000 + 12 ≤ 2048 by omega)) dstIp srcPort dstPort
  rw [hsent (by omega)] at heq
  obtain ⟨held', ho'⟩ := ht.own
  have hlength : (udpDatagram cfg dstIp srcPort dstPort data).length = 8 + data.length := by
    unfold udpDatagram
    exact List.length_append
  exact ⟨t.nextId, .of_called ht heq (ipTransmit_hands ho' ((ht.spare hs).frameLens (by omega)) hip 17)⟩

theorem length_tcpSegment (cfg : NetCfg) (p : TcpSend) (h : p.data.length + 20 < 2 ^ 16) :
    (tcpSegment cfg p).length = p.total := by
  have htcp : p.tcpLen = p.data.length + 20 := Nat.mod_eq_of_lt h
  have hle : p.tcpLen ≤ p.total := Nat.le_max_left _ _
  unfold tcpSegment TcpSend.payload
  rw [if_pos h, List.length_append, List.length_append, List.length_replicate]
  change 20 + _ = _
  omega

theorem tcpTransmit_hands (ho : Own s held all exts) (hs : s.Spare 3)
    (hip : checkIp cfg p.dstIp = true) (hlen : p.data.length + 54 ≤ 2048) :
    ∃ id, Hands cfg (nextHop cfg p.dstIp) (ipPacket cfg id p.dstIp 6 (tcpSegment cfg p)) (tcpTransmit cfg p) 0 s := by
  have htotal : p.total ≤ max (p.data.length + 20) 26 := max_le_max (Nat.mod_le _ _) (Nat.le_refl _)
  obtain ⟨t, ht, heq⟩ := tcpTransmit_eq cfg ho (hs.alloc (show p.total + 12 ≤ 2048 by omega))
  obtain ⟨held', ho'⟩ := ht.own
  have hlength := length_tcpSegment cfg p (by omega)
  exact ⟨t.nextId, .of_called ht heq (ipTransmit_hands ho' ((ht.spare hs).frameLens (by omega)) hip 6)⟩

theorem ethernetReceive_eq {cfg' : NetCfg} (ho : Own s held all exts)
    (hs : s.Spare (n + 1)) (hlen : data.length + 14 ≤ 2048) :
    ∃ b t, Own t (b ::ₘ held) all exts ∧ t.Spare n ∧ t.content b = padded data ∧
      ethernetReceive cfg' (ethernetFrame cfg mac protoIp data) s = ipReceive cfg' b t := by
  obtain ⟨frame, hframe⟩ : ∃ frame, frame = ethernetFrame cfg mac protoIp data := ⟨_, rfl⟩
  obtain ⟨macs, hmacs⟩ : ∃ macs, macs = macBytes mac ++ macBytes cfg.ethAddr := ⟨_, rfl⟩
  have hmacslen : macs.length = 12 := by
    rw [hmacs]
    simp [macBytes]
  have hsplit : frame = macs ++ le16 (ntohs protoIp) ++ padded data := by
    rw [hframe, hmacs]
    rfl
  have hframelen : frame.length = 14 + (padded data).length := by
    rw [hsplit, List.length_append, List.length_append, hmacslen]
    rfl
  have hpad : (padded data).length + 14 ≤ 2048 := by
    unfold padded
    rw [List.length_append, List.length_replicate]
    omega
  obtain ⟨b, t, ht, hk⟩ := alloc_bind (α := Unit) (hs.alloc (show frame.length ≤ 2048 by omega))
  obtain ⟨room, hfit, h0⟩ := ht.filled (by omega)
  have h1 := h0.append frame hfit
  rw [List.nil_append] at h1
  have hproto : htons (getHalf ((t.append b frame).2.view b) 12) = protoIp := by
    rw [← hmacslen, getHalf_view (h1.content.trans hsplit), htons_ntohs]
  have h2 : Filled t ((t.append b frame).2.popFront b 14).2 b (padded data) (room - frame.length) := by
    rw [hsplit] at h1 ⊢
    have hpop := h1.popFront
    rw [List.length_append, hmacslen] at hpop
    exact hpop
  refine ⟨b, _, (ho.took ht).still h2.still, (h2.called ht ho).spare hs, h2.content, ?_⟩
  rw [← hframe]
  unfold ethernetReceive
  rw [hk]
  dsimp only
  rw [append_bind, get_bind, hproto, if_neg (by decide), if_pos rfl, popFront_bind]

end

end BabyOS
