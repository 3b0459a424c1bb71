import BirdOS.Net.Mbuf

/-! # Sending and receiving datagrams (`net.c`, `sysnet.c`)

The `net_tx` functions give the mbuf that `e1000_transmit` gets, or `none` for a panic.  `net_rx`
says what becomes of a frame; it is `none` if a header field is read outside the frame.
`consume` is what then happens to the mbuf itself, which is known by its page.  The queue of a
socket is the list of its mbufs. -/

namespace BirdOS.Net

open ByteMem OnesComplement List Option

def local_ip : Nat := 10 * 2 ^ 24 + 0 * 2 ^ 16 + 2 * 2 ^ 8 + 15
def local_mac : List UInt8 := [0x52, 0x54, 0x00, 0x12, 0x34, 0x56]
def broadcast_mac : List UInt8 := [0xff, 0xff, 0xff, 0xff, 0xff, 0xff]
def ETHADDR_LEN : Nat := 6
def ETHTYPE_IP : Nat := 0x0800
def ETHTYPE_ARP : Nat := 0x0806
def IPPROTO_UDP : Nat := 17
def ARP_HRD_ETHER : Nat := 1
def ARP_OP_REQUEST : Nat := 1
def ARP_OP_REPLY : Nat := 2

def ETH : Nat := 14
def IP : Nat := 20
def UDP : Nat := 8
def ARP : Nat := 28

/-! ## Sending -/

def net_tx_eth (m : Mbuf) (ethtype : Nat) : Option Mbuf :=
  (mbufpush m ETH).map fun m =>
    let buf := put m.buf (m.head + 6) local_mac
    let buf := put buf m.head broadcast_mac
    { m with buf := store buf (m.head + 12) 2 (htons ethtype) }

def net_tx_ip (m : Mbuf) (proto dip : Nat) : Option Mbuf :=
  (mbufpush m IP).bind fun m =>
    let iphdr := m.head
    let buf := fill m.buf iphdr IP 0
    let buf := store buf iphdr 1 0x45
    let buf := store buf (iphdr + 9) 1 proto
    let buf := store buf (iphdr + 12) 4 (htonl local_ip)
    let buf := store buf (iphdr + 16) 4 (htonl dip)
    let buf := store buf (iphdr + 2) 2 (htons (m.len % 2 ^ 16))
    let buf := store buf (iphdr + 8) 1 100
    (in_cksum (fun a n => some (load buf a n)) iphdr IP).bind fun sum =>
      net_tx_eth { m with buf := store buf (iphdr + 10) 2 sum } ETHTYPE_IP

def net_tx_udp (m : Mbuf) (dip sport dport : Nat) : Option Mbuf :=
  (mbufpush m UDP).bind fun m =>
    let udphdr := m.head
    let buf := store m.buf udphdr 2 (htons sport)
    let buf := store buf (udphdr + 2) 2 (htons dport)
    let buf := store buf (udphdr + 4) 2 (htons (m.len % 2 ^ 16))
    let buf := store buf (udphdr + 6) 2 0
    net_tx_ip { m with buf := buf } IPPROTO_UDP dip

/-- `dmac` is the little-endian value of the six bytes. -/
def net_tx_arp (op dmac dip : Nat) : Option Mbuf :=
  (mbufalloc MBUF_DEFAULT_HEADROOM).bind fun m => (mbufput m ARP).bind fun (arphdr, m) =>
    let buf := store m.buf arphdr 2 (htons ARP_HRD_ETHER)
    let buf := store buf (arphdr + 2) 2 (htons ETHTYPE_IP)
    let buf := store buf (arphdr + 4) 1 ETHADDR_LEN
    let buf := store buf (arphdr + 5) 1 4
    let buf := store buf (arphdr + 6) 2 (htons op)
    let buf := put buf (arphdr + 8) local_mac
    let buf := store buf (arphdr + 14) 4 (htonl local_ip)
    let buf := store buf (arphdr + 18) 6 dmac
    let buf := store buf (arphdr + 24) 4 (htonl dip)
    net_tx_eth { m with buf := buf } ETHTYPE_ARP

def sockwrite (payload : List UInt8) : Option Mbuf :=
  (mbufalloc MBUF_DEFAULT_HEADROOM).bind fun m => (mbufput m payload.length).map fun (p, m) =>
    { m with buf := put m.buf p payload }

/-! ## Receiving -/

inductive Fate where
  /-- `mbuffree` -/
  | freed
  /-- A reply to an ARP request, then `mbuffree`. -/
  | arp (smac sip : Nat)
  /-- `sockrecvudp(m, raddr, lport, rport)` -/
  | recvudp (m : Mbuf) (raddr lport rport : Nat)

def net_rx_udp (rd : Nat → Nat → Option Nat) (m : Mbuf) (len iphdr : Nat) : Option Fate :=
  match mbufpull m UDP with
  | none => some .freed
  | some (udphdr, m) =>
    (rd (udphdr + 4) 2).bind fun ulen =>
    if ntohs ulen ≠ len then some .freed
    else
      let len := (len + 2 ^ 16 - UDP) % 2 ^ 16
      if len > m.len then some .freed
      else
        let m := ((mbuftrim m (m.len - len)).map Prod.snd).getD m
        (rd (iphdr + 12) 4).bind fun src =>
        (rd udphdr 2).bind fun sport =>
        (rd (udphdr + 2) 2).bind fun dport =>
        some (.recvudp m (ntohl src) (ntohs dport) (ntohs sport))

def net_rx_ip (rd : Nat → Nat → Option Nat) (m : Mbuf) : Option Fate :=
  match mbufpull m IP with
  | none => some .freed
  | some (iphdr, m) =>
    (rd iphdr 1).bind fun vhl =>
    if vhl ≠ 0x45 then some .freed
    else
    (in_cksum rd iphdr IP).bind fun sum =>
    if sum ≠ 0 then some .freed
    else
    (rd (iphdr + 6) 2).bind fun off =>
    if htons off ≠ 0 then some .freed
    else
    (rd (iphdr + 16) 4).bind fun dst =>
    if htonl dst ≠ local_ip then some .freed
    else
    (rd (iphdr + 9) 1).bind fun p =>
    if p ≠ IPPROTO_UDP then some .freed
    else
    (rd (iphdr + 2) 2).bind fun ip_len =>
    net_rx_udp rd m ((ntohs ip_len + 2 ^ 16 - IP) % 2 ^ 16) iphdr

def net_rx_arp (rd : Nat → Nat → Option Nat) (m : Mbuf) : Option Fate :=
  match mbufpull m ARP with
  | none => some .freed
  | some (arphdr, _) =>
    (rd arphdr 2).bind fun hrd =>
    if ntohs hrd ≠ ARP_HRD_ETHER then some .freed
    else
    (rd (arphdr + 2) 2).bind fun pro =>
    if ntohs pro ≠ ETHTYPE_IP then some .freed
    else
    (rd (arphdr + 4) 1).bind fun hln =>
    if hln ≠ ETHADDR_LEN then some .freed
    else
    (rd (arphdr + 5) 1).bind fun pln =>
    if pln ≠ 4 then some .freed
    else
    (rd (arphdr + 24) 4).bind fun tip =>
    (rd (arphdr + 6) 2).bind fun op =>
    if ntohs op ≠ ARP_OP_REQUEST ∨ ntohl tip ≠ local_ip then some .freed
    else
    (rd (arphdr + 8) 6).bind fun smac =>
    (rd (arphdr + 14) 4).bind fun sip =>
    some (.arp smac (ntohl sip))

def Mbuf.rd (f : Mbuf) (a n : Nat) : Option Nat :=
  if f.head ≤ a ∧ a + n ≤ f.head + f.len then some (load f.buf a n) else none

def net_rx (f : Mbuf) : Option Fate :=
  match mbufpull f ETH with
  | none => some .freed
  | some (ethhdr, m) =>
    (f.rd (ethhdr + 12) 2).bind fun type =>
    if ntohs type = ETHTYPE_IP then net_rx_ip f.rd m
    else if ntohs type = ETHTYPE_ARP then net_rx_arp f.rd m
    else some .freed

/-! ## The network stack -/

abbrev Page := Nat

structure Sock where
  raddr : Nat
  lport : Nat
  rport : Nat
  rxq : List (Page × Mbuf)

structure Stack where
  sockets : List Sock
  freed : List Page
  /-- What the device accepted. -/
  sent : List Mbuf

def Sock.matches (si : Sock) (raddr lport rport : Nat) : Bool :=
  si.raddr = raddr && si.lport = lport && si.rport = rport

def enqueue (q : Page × Mbuf) (raddr lport rport : Nat) : List Sock → Option (List Sock)
  | [] => none
  | si :: rest =>
    if si.matches raddr lport rport then some ({ si with rxq := si.rxq ++ [q] } :: rest)
    else (enqueue q raddr lport rport rest).map (si :: ·)

def sockrecvudp (st : Stack) (page : Page) (m : Mbuf) (raddr lport rport : Nat) : Stack :=
  match enqueue (page, m) raddr lport rport st.sockets with
  | some sockets => { st with sockets := sockets }
  | none => { st with freed := page :: st.freed }

/-- `reply` is the page for an ARP reply, and `tx` whether `e1000_transmit` takes it. -/
def consume (st : Stack) (page : Page) (reply : Option Page) (tx : Bool) : Fate → Option Stack
  | .freed => some { st with freed := page :: st.freed }
  | .arp smac sip =>
    match reply with
    | none => some { st with freed := page :: st.freed }
    | some r =>
      (net_tx_arp ARP_OP_REPLY smac sip).map fun m =>
        if tx then { st with sent := m :: st.sent, freed := page :: st.freed }
        else { st with freed := page :: r :: st.freed }
  | .recvudp m raddr lport rport => some (sockrecvudp st page m raddr lport rport)

/-! ## What is accepted -/

def be16 (m : Mem) (a : Nat) : Nat := (m a).toNat * 256 + (m (a + 1)).toNat

def be32 (m : Mem) (a : Nat) : Nat := be16 m a * 2 ^ 16 + be16 m (a + 2)

/-- An unfragmented UDP datagram for the local address, with a header of 20 bytes, a correct
checksum, and lengths that agree and do not exceed the frame. -/
structure Datagram (f : Mbuf) : Prop where
  room : ETH + IP + UDP ≤ f.len
  type : be16 f.buf (f.head + 12) = ETHTYPE_IP
  vhl : (f.buf (f.head + 14)).toNat = 0x45
  cksum : 0 < wordSum f.buf (f.head + 14) 10 ∧
    wordSum f.buf (f.head + 14) 10 % (2 ^ 16 - 1) = 0
  unfragmented : be16 f.buf (f.head + 20) = 0
  dst : be32 f.buf (f.head + 30) = local_ip
  proto : (f.buf (f.head + 23)).toNat = IPPROTO_UDP
  total : be16 f.buf (f.head + 16) = IP + be16 f.buf (f.head + 38)
  ulen : UDP ≤ be16 f.buf (f.head + 38)
  fits : ETH + IP + be16 f.buf (f.head + 38) ≤ f.len

def Mbuf.payload (f : Mbuf) : Mbuf :=
  ⟨f.buf, f.head + (ETH + IP + UDP), be16 f.buf (f.head + 38) - UDP⟩

def Mbuf.delivery (f : Mbuf) : Fate :=
  .recvudp f.payload (be32 f.buf (f.head + 26)) (be16 f.buf (f.head + 36))
    (be16 f.buf (f.head + 34))

theorem ntohs_load_eq (m : Mem) (a : Nat) : ntohs (load m a 2) = be16 m a := ntohs_load m a

theorem ntohl_load_eq (m : Mem) (a : Nat) : ntohl (load m a 4) = be32 m a := by
  have h0 := (m a).toNat_lt
  have h1 := (m (a + 1)).toNat_lt
  have h2 := (m (a + 1 + 1)).toNat_lt
  have h3 := (m (a + 1 + 1 + 1)).toNat_lt
  have hload : load m a 4 = (m (a + 1 + 1 + 1)).toNat * 2 ^ 24 + ((m (a + 1 + 1)).toNat * 2 ^ 16 +
      ((m (a + 1)).toNat * 2 ^ 8 + (m a).toNat)) := by
    simp only [load]
    omega
  rw [hload, ntohl, bswapl_bytes h3 h2 h1 h0]
  simp only [be32, be16, add_assoc, Nat.reduceAdd]
  omega

theorem htons_load_eq (m : Mem) (a : Nat) : htons (load m a 2) = be16 m a := ntohs_load m a

theorem htonl_load_eq (m : Mem) (a : Nat) : htonl (load m a 4) = be32 m a := ntohl_load_eq m a

theorem load_one (m : Mem) (a : Nat) : load m a 1 = (m a).toNat := by
  simp [load]

theorem be16_lt (m : Mem) (a : Nat) : be16 m a < 2 ^ 16 := by
  have h0 := (m a).toNat_lt
  have h1 := (m (a + 1)).toNat_lt
  simp only [be16]
  omega

theorem Mbuf.rd_bind {α : Type} {f : Mbuf} {a n k : Nat} (ha : a = f.head + k) (hk : k + n ≤ f.len)
    (g : Nat → Option α) : (f.rd a n).bind g = g (load f.buf (f.head + k) n) := by
  rw [Mbuf.rd, if_pos (by omega), bind_some, ha]

theorem Mbuf.rd_some {f : Mbuf} {a n : Nat} (h : f.head ≤ a) (h' : a + n ≤ f.head + f.len) :
    f.rd a n = some (load f.buf a n) := if_pos ⟨h, h'⟩

def received (frame : List UInt8) : Mbuf := ⟨fun i => frame.getD i 0, 0, frame.length⟩

/-! ## Arbitrary frames -/

section Receive
variable {f m : Mbuf}

theorem mbufpull_some {len : Nat} (h : len ≤ m.len) :
    mbufpull m len = some (m.head, { m with head := m.head + len, len := m.len - len }) :=
  if_neg (not_lt.mpr h)

theorem mbufpull_none {len : Nat} (h : ¬ len ≤ m.len) : mbufpull m len = none :=
  if_pos (Nat.lt_of_not_le h)

theorem in_cksum_frame (h : ETH + IP ≤ f.len) :
    in_cksum f.rd (f.head + 14) IP = some (complement (wordSum f.buf (f.head + 14) 10)) := by
  refine in_cksum_words (n := 10) (by decide) fun i hi => Mbuf.rd_some (by omega) ?_
  simp only [ETH, IP] at h
  omega

structure HeaderOk (f : Mbuf) : Prop where
  room : ETH + IP ≤ f.len
  vhl : (f.buf (f.head + 14)).toNat = 0x45
  cksum : complement (wordSum f.buf (f.head + 14) 10) = 0
  unfragmented : be16 f.buf (f.head + 20) = 0
  dst : be32 f.buf (f.head + 30) = local_ip
  proto : (f.buf (f.head + 23)).toNat = IPPROTO_UDP

structure LengthsOk (f : Mbuf) (len : Nat) : Prop where
  room : ETH + IP + UDP ≤ f.len
  ulen : be16 f.buf (f.head + 38) = len
  fits : (len + 2 ^ 16 - UDP) % 2 ^ 16 ≤ f.len - (ETH + IP + UDP)

def Mbuf.packet (f : Mbuf) : Mbuf := ⟨f.buf, f.head + ETH, f.len - ETH⟩

def Mbuf.segment (f : Mbuf) : Mbuf := ⟨f.buf, f.head + ETH + IP, f.len - ETH - IP⟩

theorem mbuftrim_rest {len : Nat} (h : len ≤ m.len) :
    ((mbuftrim m (m.len - len)).map Prod.snd).getD m = { m with len := len } := by
  have hle : ¬ m.len - len > m.len := by omega
  rw [mbuftrim, if_neg hle]
  simp only [map_some, getD_some, Mbuf.mk.injEq, true_and]
  omega

theorem net_rx_udp_accepts {len : Nat} (h : LengthsOk f len) :
    net_rx_udp f.rd f.segment len (f.head + ETH) =
      some (.recvudp ⟨f.buf, f.head + (ETH + IP + UDP), (len + 2 ^ 16 - UDP) % 2 ^ 16⟩
        (be32 f.buf (f.head + 26)) (be16 f.buf (f.head + 36)) (be16 f.buf (f.head + 34))) := by
  obtain ⟨hroom, hulen, hfits⟩ := h
  simp only [ETH, IP, UDP, Mbuf.segment, net_rx_udp] at *
  rw [mbufpull_some (by simp only; omega)]
  simp only
  rw [Mbuf.rd_bind (k := 38) (by omega) (by omega), if_neg (by rw [ntohs_load_eq, hulen]; simp),
    if_neg (by omega), Mbuf.rd_bind (k := 26) (by omega) (by omega),
    Mbuf.rd_bind (k := 34) (by omega) (by omega), Mbuf.rd_bind (k := 36) (by omega) (by omega),
    ntohl_load_eq, ntohs_load_eq, ntohs_load_eq,
    mbuftrim_rest (m := ⟨f.buf, f.head + 14 + 20 + 8, f.len - 14 - 20 - 8⟩) (by simp only; omega)]

theorem net_rx_udp_rejects {len : Nat} (hroom : ETH + IP ≤ f.len) (h : ¬ LengthsOk f len) :
    net_rx_udp f.rd f.segment len (f.head + ETH) = some .freed := by
  simp only [ETH, IP, UDP, Mbuf.segment, net_rx_udp] at *
  by_cases hudp : 42 ≤ f.len
  · rw [mbufpull_some (by simp only; omega)]
    simp only
    rw [Mbuf.rd_bind (k := 38) (by omega) (by omega), ntohs_load_eq]
    by_cases hulen : be16 f.buf (f.head + 38) = len
    · rw [if_neg (by simp [hulen])]
      by_cases hfits : (len + 2 ^ 16 - 8) % 2 ^ 16 ≤ f.len - 14 - 20 - 8
      · exact absurd ⟨hudp, hulen, by simp only [ETH, IP, UDP]; omega⟩ h
      · rw [if_pos (Nat.lt_of_not_le hfits)]
    · rw [if_pos hulen]
  · rw [mbufpull_none (by simp only; omega)]

theorem net_rx_ip_accepts (h : HeaderOk f) : net_rx_ip f.rd f.packet =
      net_rx_udp f.rd f.segment ((be16 f.buf (f.head + 16) + 2 ^ 16 - IP) % 2 ^ 16)
        (f.head + ETH) := by
  obtain ⟨hroom, hvhl, hcksum, hoff, hdst, hproto⟩ := h
  have hsum := in_cksum_frame hroom
  simp only [ETH, IP, Mbuf.packet, Mbuf.segment, net_rx_ip] at *
  rw [mbufpull_some (by simp only; omega)]
  simp only
  rw [Mbuf.rd_bind (k := 14) rfl (by omega), load_one, if_neg (by rw [hvhl]; simp), hsum,
    bind_some, hcksum, if_neg (by simp), Mbuf.rd_bind (k := 20) (by omega) (by omega),
    htons_load_eq, hoff, if_neg (by simp), Mbuf.rd_bind (k := 30) (by omega) (by omega),
    htonl_load_eq, hdst, if_neg (by simp), Mbuf.rd_bind (k := 23) (by omega) (by omega), load_one,
    hproto, if_neg (by simp), Mbuf.rd_bind (k := 16) (by omega) (by omega), ntohs_load_eq]

theorem net_rx_ip_rejects (h : ¬ HeaderOk f) : net_rx_ip f.rd f.packet = some .freed := by
  by_cases hroom : ETH + IP ≤ f.len
  · have hsum := in_cksum_frame hroom
    simp only [ETH, IP, Mbuf.packet, net_rx_ip] at *
    rw [mbufpull_some (by simp only; omega)]
    simp only
    rw [Mbuf.rd_bind (k := 14) rfl (by omega), load_one]
    by_cases hvhl : (f.buf (f.head + 14)).toNat = 0x45
    · rw [if_neg (by rw [hvhl]; simp), hsum, bind_some]
      by_cases hcksum : complement (wordSum f.buf (f.head + 14) 10) = 0
      · rw [hcksum, if_neg (by simp), Mbuf.rd_bind (k := 20) (by omega) (by omega), htons_load_eq]
        by_cases hoff : be16 f.buf (f.head + 20) = 0
        · rw [hoff, if_neg (by simp), Mbuf.rd_bind (k := 30) (by omega) (by omega), htonl_load_eq]
          by_cases hdst : be32 f.buf (f.head + 30) = local_ip
          · rw [hdst, if_neg (by simp), Mbuf.rd_bind (k := 23) (by omega) (by omega), load_one]
            by_cases hproto : (f.buf (f.head + 23)).toNat = IPPROTO_UDP
            · exact absurd ⟨hroom, hvhl, hcksum, hoff, hdst, hproto⟩ h
            · rw [if_pos hproto]
          · rw [if_pos hdst]
        · rw [if_pos hoff]
      · rw [if_pos hcksum]
    · rw [if_pos hvhl]
  · rw [net_rx_ip, mbufpull_none]
    simp only [ETH, IP, Mbuf.packet] at *
    omega

def Ended (o : Option Fate) : Prop := o = some .freed ∨ ∃ smac sip, o = some (.arp smac sip)

theorem Ended.test {c : Prop} [Decidable c] {o : Option Fate} (h : Ended o) :
    Ended (if c then some .freed else o) := by
  by_cases hc : c
  · exact .inl (if_pos hc)
  · rwa [if_neg hc]

theorem Ended.read {g : Nat → Option Fate} {a n k : Nat} (ha : a = f.head + k) (hk : k + n ≤ f.len)
    (h : ∀ v, Ended (g v)) : Ended ((f.rd a n).bind g) := by
  rw [Mbuf.rd_bind ha hk]
  exact h _

theorem net_rx_arp_total : Ended (net_rx_arp f.rd f.packet) := by
  by_cases hpull : ARP ≤ f.packet.len
  · rw [net_rx_arp, mbufpull_some hpull]
    simp only [ARP, ETH, Mbuf.packet] at hpull
    apply Ended.read (k := 14) rfl (by omega)
    intro hrd
    apply Ended.test
    apply Ended.read (k := 16) rfl (by omega)
    intro pro
    apply Ended.test
    apply Ended.read (k := 18) rfl (by omega)
    intro hln
    apply Ended.test
    apply Ended.read (k := 19) rfl (by omega)
    intro pln
    apply Ended.test
    apply Ended.read (k := 38) rfl (by omega)
    intro tip
    apply Ended.read (k := 20) rfl (by omega)
    intro op
    apply Ended.test
    apply Ended.read (k := 22) rfl (by omega)
    intro smac
    apply Ended.read (k := 28) rfl (by omega)
    intro sip
    exact .inr ⟨_, _, rfl⟩
  · rw [net_rx_arp, mbufpull_none hpull]
    exact .inl rfl

theorem Datagram.header (h : Datagram f) : HeaderOk f := by
  have hlt := wordSum_lt f.buf 10 (f.head + 14)
  refine ⟨?_, h.vhl, (complement_eq_zero (by omega)).mpr h.cksum, h.unfragmented, h.dst, h.proto⟩
  exact le_trans (Nat.le_add_right ..) h.room

theorem Datagram.len_eq (h : Datagram f) :
    (be16 f.buf (f.head + 16) + 2 ^ 16 - IP) % 2 ^ 16 = be16 f.buf (f.head + 38) := by
  have hlt := be16_lt f.buf (f.head + 38)
  rw [h.total]
  simp only [IP]
  omega

theorem Datagram.payload_eq (h : Datagram f) :
    (be16 f.buf (f.head + 38) + 2 ^ 16 - UDP) % 2 ^ 16 = be16 f.buf (f.head + 38) - UDP := by
  have hlt := be16_lt f.buf (f.head + 38)
  have hulen := h.ulen
  simp only [UDP] at *
  omega

theorem net_rx_delivers (h : Datagram f) : net_rx f = some f.delivery := by
  have hlengths : LengthsOk f (be16 f.buf (f.head + 38)) := by
    refine ⟨h.room, rfl, ?_⟩
    rw [h.payload_eq]
    have hfits := h.fits
    simp only [ETH, IP, UDP] at *
    omega
  have hroom := h.room
  simp only [ETH, IP, UDP] at hroom
  rw [net_rx, mbufpull_some (by simp only [ETH]; omega)]
  simp only
  rw [Mbuf.rd_bind (k := 12) rfl (by omega), ntohs_load_eq, h.type, if_pos rfl]
  have hip := net_rx_ip_accepts h.header
  rw [h.len_eq, net_rx_udp_accepts hlengths, h.payload_eq] at hip
  exact hip

theorem HeaderOk.datagram (h : HeaderOk f) (hlen : f.len ≤ MBUF_SIZE)
    (htype : be16 f.buf (f.head + 12) = ETHTYPE_IP)
    (hlengths : LengthsOk f ((be16 f.buf (f.head + 16) + 2 ^ 16 - IP) % 2 ^ 16)) : Datagram f := by
  have hlt := wordSum_lt f.buf 10 (f.head + 14)
  have hiplen := be16_lt f.buf (f.head + 16)
  obtain ⟨hroom, hulen, hfits⟩ := hlengths
  simp only [IP, ETH, UDP, MBUF_SIZE] at hulen hfits hlen
  refine ⟨hroom, htype, h.vhl, (complement_eq_zero (by omega)).mp h.cksum, h.unfragmented, h.dst,
    h.proto, ?_, ?_, ?_⟩
  · simp only [IP]
    omega
  · simp only [UDP]
    omega
  · simp only [ETH, IP, UDP] at hroom ⊢
    omega

theorem net_rx_cases (hlen : f.len ≤ MBUF_SIZE) :
    (Datagram f ∧ net_rx f = some f.delivery) ∨ Ended (net_rx f) := by
  by_cases hdata : Datagram f
  · exact .inl ⟨hdata, net_rx_delivers hdata⟩
  right
  by_cases hroom : ETH ≤ f.len
  · rw [net_rx, mbufpull_some hroom]
    simp only
    rw [Mbuf.rd_bind (k := 12) rfl (by simp only [ETH] at *; omega), ntohs_load_eq]
    by_cases htype : be16 f.buf (f.head + 12) = ETHTYPE_IP
    · rw [if_pos htype]
      left
      by_cases hheader : HeaderOk f
      · have haccept := net_rx_ip_accepts hheader
        rw [net_rx_udp_rejects hheader.room fun h => hdata (hheader.datagram hlen htype h)]
          at haccept
        exact haccept
      · exact net_rx_ip_rejects hheader
    · rw [if_neg htype]
      split
      · exact net_rx_arp_total
      · exact .inl rfl
  · left
    rw [net_rx, mbufpull_none hroom]

theorem net_tx_arp_some (op dmac dip : Nat) : ∃ m, net_tx_arp op dmac dip = some m := ⟨_, rfl⟩

theorem enqueue_some {q : Page × Mbuf} {raddr lport rport : Nat} {sockets sockets' : List Sock}
    (h : enqueue q raddr lport rport sockets = some sockets') :
    ∃ before si after, sockets = before ++ si :: after ∧ si.matches raddr lport rport = true ∧
      sockets' = before ++ { si with rxq := si.rxq ++ [q] } :: after := by
  induction sockets generalizing sockets' with
  | nil => simp [enqueue] at h
  | cons si rest ih =>
    rw [enqueue] at h
    by_cases hsi : si.matches raddr lport rport = true
    · rw [if_pos hsi, Option.some.injEq] at h
      exact ⟨[], si, rest, rfl, hsi, h.symm⟩
    rw [if_neg hsi, map_eq_some_iff] at h
    obtain ⟨rest', hrest, rfl⟩ := h
    obtain ⟨before, sj, after, rfl, hsj, rfl⟩ := ih hrest
    exact ⟨si :: before, sj, after, rfl, hsj, rfl⟩

def FreedOnce (st st' : Stack) (page : Page) : Prop :=
  st'.freed.count page = st.freed.count page + 1 ∧ st'.sockets = st.sockets

/-- The mbuf in `page` is the last in the queue of the socket that waits for datagrams of this
sender to this port, with the payload of `f`. -/
def Queued (st st' : Stack) (page : Page) (f : Mbuf) : Prop :=
  st'.freed = st.freed ∧ ∃ before si after, st.sockets = before ++ si :: after ∧
    si.matches (be32 f.buf (f.head + 26)) (be16 f.buf (f.head + 36)) (be16 f.buf (f.head + 34)) ∧
    st'.sockets = before ++ { si with rxq := si.rxq ++ [(page, f.payload)] } :: after

theorem consume_ended {st : Stack} {page : Page} {reply : Option Page} (hreply : reply ≠ some page)
    (tx : Bool) {o : Option Fate} (h : Ended o) :
    ∃ st', o.bind (consume st page reply tx) = some st' ∧ FreedOnce st st' page := by
  rcases h with rfl | ⟨smac, sip, rfl⟩
  · exact ⟨_, rfl, count_cons_self, rfl⟩
  cases reply with
  | none => exact ⟨_, rfl, count_cons_self, rfl⟩
  | some r =>
    obtain ⟨m, hm⟩ := net_tx_arp_some ARP_OP_REPLY smac sip
    have hne : r ≠ page := fun e => hreply (congrArg some e)
    rw [bind_some, consume, hm, map_some]
    refine ⟨_, rfl, ?_⟩
    cases tx with
    | true => exact ⟨count_cons_self, rfl⟩
    | false =>
      refine ⟨?_, rfl⟩
      simp only [Bool.false_eq_true, if_false]
      rw [count_cons_self, count_cons_of_ne hne]

theorem consume_delivery (st : Stack) (page : Page) (reply : Option Page) (tx : Bool) (f : Mbuf) :
    ∃ st', consume st page reply tx f.delivery = some st' ∧
      (FreedOnce st st' page ∨ Queued st st' page f) := by
  refine ⟨_, rfl, ?_⟩
  rw [sockrecvudp]
  cases henq : enqueue (page, f.payload) (be32 f.buf (f.head + 26)) (be16 f.buf (f.head + 36))
      (be16 f.buf (f.head + 34)) st.sockets with
  | none => exact .inl ⟨count_cons_self, rfl⟩
  | some sockets => exact .inr ⟨rfl, enqueue_some henq⟩

/-- Any frame is handled without a read outside it.  Its mbuf is freed once or queued once, and
what is queued is the payload of a datagram that is inside the frame. -/
theorem net_rx_consumes_once (f : Mbuf) (hlen : f.len ≤ MBUF_SIZE) (st : Stack) (page : Page)
    (reply : Option Page) (hreply : reply ≠ some page) (tx : Bool) :
    ∃ st', (net_rx f).bind (consume st page reply tx) = some st' ∧
      (FreedOnce st st' page ∨ Queued st st' page f ∧ Datagram f ∧
        f.payload.head + f.payload.len ≤ f.head + f.len) := by
  rcases net_rx_cases hlen with ⟨hdata, hrx⟩ | hended
  · obtain ⟨st', hst', hfate⟩ := consume_delivery st page reply tx f
    rw [hrx, Option.bind_some]
    refine ⟨st', hst', hfate.imp id fun hqueued => ⟨hqueued, hdata, ?_⟩⟩
    have hfits := hdata.fits
    have hulen := hdata.ulen
    simp only [Mbuf.payload, ETH, IP, UDP] at *
    omega
  · obtain ⟨st', hst', hfreed⟩ := @consume_ended st _ _ hreply tx _ hended
    exact ⟨st', hst', .inl hfreed⟩

def wrapping : List UInt8 :=
  List.replicate 12 0xff ++ [0x08, 0x00, 0x45, 0, 0, 8, 0, 0, 0, 0, 100, 17, 0x3e, 0xd5,
    10, 0, 2, 2,
    10, 0, 2, 15, 0x07, 0xd0, 0x64, 0x03, 0xff, 0xf4, 0, 0]

theorem net_rx_consumes_once_wrapping : ∃ st', (net_rx (received wrapping)).bind
        (consume ⟨[⟨10 * 2 ^ 24 + 2 * 2 ^ 8 + 2, 25603, 2000, []⟩], [], []⟩ 1 (some 2) true) =
        some st' ∧ (FreedOnce ⟨[⟨10 * 2 ^ 24 + 2 * 2 ^ 8 + 2, 25603, 2000, []⟩], [], []⟩ st' 1 ∨
        Queued ⟨[⟨10 * 2 ^ 24 + 2 * 2 ^ 8 + 2, 25603, 2000, []⟩], [], []⟩ st' 1
          (received wrapping) ∧
          Datagram (received wrapping) ∧
          (received wrapping).payload.head + (received wrapping).payload.len ≤
            (received wrapping).head + (received wrapping).len) :=
  net_rx_consumes_once (received wrapping) (by decide) _ 1 (some 2) (by decide) true

end Receive

/-! ## What is sent -/

structure Framed (m m' : Mbuf) (k : Nat) : Prop where
  head : m'.head + k = m.head
  len : m'.len = m.len + k
  rest : ∀ x, m.head ≤ x → m'.buf x = m.buf x

section Transmit
variable {m m' m'' : Mbuf}

theorem Framed.trans {j k : Nat} (h : Framed m m' j) (h' : Framed m' m'' k) :
    Framed m m'' (k + j) where
  head := by rw [← add_assoc, h'.head, h.head]
  len := by rw [h'.len, h.len]; omega
  rest x hx := by rw [h'.rest x (by have := h.head; omega), h.rest x hx]

theorem be16_congr {b b' : Mem} {x y : Nat} (h : ∀ i < 2, b (x + i) = b' (y + i)) :
    be16 b x = be16 b' y := by
  have h0 : b x = b' y := h 0 (by omega)
  rw [be16, be16, h0, h 1 (by omega)]

theorem be32_congr {b b' : Mem} {x y : Nat} (h : ∀ i < 4, b (x + i) = b' (y + i)) :
    be32 b x = be32 b' y := by
  have hhigh : be16 b x = be16 b' y := be16_congr fun i hi => h i (by omega)
  have hlow : be16 b (x + 2) = be16 b' (y + 2) := by
    apply be16_congr
    intro i hi
    rw [add_assoc, add_assoc]
    exact h (2 + i) (by omega)
  rw [be32, be32, hhigh, hlow]

theorem be16_store (b : Mem) (a : Nat) {v : Nat} (hv : v < 2 ^ 16) :
    be16 (store b a 2 (htons v)) a = v := by
  have hlt := bswaps_lt v
  rw [← ntohs_load_eq, load_store, Nat.mod_eq_of_lt (by omega)]
  exact bswaps_bswaps hv

theorem be32_store (b : Mem) (a : Nat) {v : Nat} (hv : v < 2 ^ 32) :
    be32 (store b a 4 (htonl v)) a = v := by
  have hlt := bswapl_lt v
  rw [← ntohl_load_eq, load_store, Nat.mod_eq_of_lt (by omega)]
  exact bswapl_bswapl hv

theorem be16_store_other (b : Mem) {a n v x : Nat} (h : x + 2 ≤ a ∨ a + n ≤ x) :
    be16 (store b a n v) x = be16 b x :=
  be16_congr fun i hi => store_other b (by omega)

theorem be32_store_other (b : Mem) {a n v x : Nat} (h : x + 4 ≤ a ∨ a + n ≤ x) :
    be32 (store b a n v) x = be32 b x :=
  be32_congr fun i hi => store_other b (by omega)

theorem net_tx_eth_framed (hroom : ETH ≤ m.head) {ethtype : Nat} (ht : ethtype < 2 ^ 16) :
    ∃ m', net_tx_eth m ethtype = some m' ∧ Framed m m' ETH ∧
      be16 m'.buf (m'.head + 12) = ethtype := by
  rw [net_tx_eth, mbufpush, if_neg (not_lt.mpr hroom), map_some]
  simp only [ETH] at *
  refine ⟨_, rfl, ⟨Nat.sub_add_cancel hroom, rfl, fun x hx => ?_⟩, be16_store _ _ ht⟩
  simp only
  rw [store_other _ (by omega), put_other _ (by simp only [broadcast_mac, length]; omega),
    put_other _ (by simp only [local_mac, length]; omega)]

structure IpHeader (b : Mem) (p proto dip len : Nat) : Prop where
  vhl : (b p).toNat = 0x45
  total : be16 b (p + 2) = len
  unfragmented : be16 b (p + 6) = 0
  proto : (b (p + 9)).toNat = proto
  cksum : complement (wordSum b p 10) = 0
  src : be32 b (p + 12) = local_ip
  dst : be32 b (p + 16) = dip

def unsummed (b : Mem) (p proto dip len : Nat) : Mem :=
  let b := fill b p IP 0
  let b := store b p 1 0x45
  let b := store b (p + 9) 1 proto
  let b := store b (p + 12) 4 (htonl local_ip)
  let b := store b (p + 16) 4 (htonl dip)
  let b := store b (p + 2) 2 (htons (len % 2 ^ 16))
  store b (p + 8) 1 100

def summed (b : Mem) (p proto dip len : Nat) : Mem :=
  let b := unsummed b p proto dip len
  store b (p + 10) 2 (complement (wordSum b p 10))

theorem net_tx_ip_eq (m : Mbuf) (proto dip : Nat) : net_tx_ip m proto dip =
    (mbufpush m IP).bind fun m =>
      net_tx_eth { m with buf := summed m.buf m.head proto dip m.len } ETHTYPE_IP := by
  have hsum : ∀ (b : Mem) (p : Nat), in_cksum (fun a n => some (load b a n)) p IP =
      some (complement (wordSum b p 10)) :=
    fun b p => in_cksum_words (n := 10) (by decide) fun i hi => rfl
  simp only [net_tx_ip, hsum, bind_some, summed, unsummed]

theorem summed_other (b : Mem) {p proto dip len x : Nat} (h : x < p ∨ p + IP ≤ x) :
    summed b p proto dip len x = b x := by
  simp only [summed, unsummed, IP] at *
  simp (disch := omega) only [store_other, fill_other]

theorem summed_header (b : Mem) (p : Nat) {proto dip len : Nat} (hproto : proto < 256)
    (hdip : dip < 2 ^ 32) (hlen : len < 2 ^ 16) :
    IpHeader (summed b p proto dip len) p proto dip len := by
  have hsum := wordSum_lt (unsummed b p proto dip len) 10 p
  have hzero : load (unsummed b p proto dip len) (p + 2 * 5) 2 = 0 := by
    simp (disch := omega) only [unsummed, load_store_other]
    exact load_fill_zero _ (by omega) (by simp only [IP]; omega)
  constructor
  · rw [← load_one]
    simp (disch := omega) only [summed, unsummed, load_store_other]
    rw [load_store, Nat.mod_eq_of_lt (by decide)]
  · simp (disch := omega) only [summed, unsummed, be16_store_other]
    rw [Nat.mod_eq_of_lt hlen, be16_store _ _ hlen]
  · simp (disch := omega) only [summed, unsummed, be16_store_other]
    rw [← ntohs_load_eq, load_fill_zero _ (by omega) (by simp only [IP]; omega)]
    rfl
  · rw [← load_one]
    simp (disch := omega) only [summed, unsummed, load_store_other]
    rw [load_store, Nat.pow_one, Nat.mod_eq_of_lt hproto]
  · rw [summed, wordSum_store _ (i := 5) (by decide) (complement_lt _) hzero]
    exact complement_add (by omega)
  · simp (disch := omega) only [summed, unsummed, be32_store_other]
    exact be32_store _ _ (by decide)
  · simp (disch := omega) only [summed, unsummed, be32_store_other]
    exact be32_store _ _ hdip

theorem net_tx_ip_framed (hroom : ETH + IP ≤ m.head) {proto dip : Nat} (hproto : proto < 256)
    (hdip : dip < 2 ^ 32) (hlen : m.len + IP < 2 ^ 16) :
    ∃ m', net_tx_ip m proto dip = some m' ∧ Framed m m' (ETH + IP) ∧
      be16 m'.buf (m'.head + 12) = ETHTYPE_IP ∧
      IpHeader m'.buf (m'.head + ETH) proto dip (m.len + IP) := by
  rw [net_tx_ip_eq, mbufpush, if_neg (by omega), bind_some]
  have hsummed : IpHeader (summed m.buf (m.head - IP) proto dip (m.len + IP)) (m.head - IP) proto
    dip (m.len + IP) := summed_header _ _ hproto hdip hlen
  obtain ⟨m', hm', hframed, htype⟩ := @net_tx_eth_framed
    ⟨summed m.buf (m.head - IP) proto dip (m.len + IP), m.head - IP, m.len + IP⟩
    (by simp only; omega) ETHTYPE_IP (by decide)
  refine ⟨m', hm', ?_, htype, ?_⟩
  · have hip : Framed m ⟨summed m.buf (m.head - IP) proto dip (m.len + IP), m.head - IP, m.len + IP⟩
        IP := ⟨by simp only; omega, rfl, fun x hx => summed_other _ (by omega)⟩
    exact hip.trans hframed
  · have hhead : m'.head + ETH = m.head - IP := hframed.head
    have hrest : ∀ x, m.head - IP ≤ x →
        m'.buf x = summed m.buf (m.head - IP) proto dip (m.len + IP) x := hframed.rest
    rw [hhead]
    generalize m.head - IP = p at *
    constructor
    · rw [hrest p le_rfl, hsummed.vhl]
    · rw [be16_congr fun i _ => hrest (p + 2 + i) (by omega), hsummed.total]
    · rw [be16_congr fun i _ => hrest (p + 6 + i) (by omega), hsummed.unfragmented]
    · rw [hrest (p + 9) (by omega), hsummed.proto]
    · rw [wordSum_congr 10 p p fun i _ => load_congr 2 _ fun x hx _ => hrest x (by omega),
        hsummed.cksum]
    · rw [be32_congr fun i _ => hrest (p + 12 + i) (by omega), hsummed.src]
    · rw [be32_congr fun i _ => hrest (p + 16 + i) (by omega), hsummed.dst]

def udpHeader (b : Mem) (p sport dport len : Nat) : Mem :=
  let b := store b p 2 (htons sport)
  let b := store b (p + 2) 2 (htons dport)
  let b := store b (p + 4) 2 (htons (len % 2 ^ 16))
  store b (p + 6) 2 0

theorem udpHeader_framed (m : Mbuf) (hroom : UDP ≤ m.head) (sport dport : Nat) : Framed m
    ⟨udpHeader m.buf (m.head - UDP) sport dport (m.len + UDP), m.head - UDP, m.len + UDP⟩ UDP := by
  refine ⟨Nat.sub_add_cancel hroom, rfl, fun x hx => ?_⟩
  simp only [udpHeader, UDP] at *
  simp (disch := omega) only [store_other]

theorem net_tx_udp_eq (hroom : UDP ≤ m.head) (dip sport dport : Nat) :
    net_tx_udp m dip sport dport =
    net_tx_ip ⟨udpHeader m.buf (m.head - UDP) sport dport (m.len + UDP), m.head - UDP, m.len + UDP⟩
      IPPROTO_UDP dip := by
  rw [net_tx_udp, mbufpush, if_neg (by omega), bind_some]
  rfl

theorem net_tx_udp_framed (hroom : ETH + IP + UDP ≤ m.head) {dip : Nat} (hdip : dip < 2 ^ 32)
    (sport dport : Nat) (hlen : m.len + UDP + IP < 2 ^ 16) :
    ∃ f, net_tx_udp m dip sport dport = some f ∧ Framed m f (ETH + IP + UDP) := by
  obtain ⟨f, hf, hframed, -⟩ := @net_tx_ip_framed
    ⟨udpHeader m.buf (m.head - UDP) sport dport (m.len + UDP), m.head - UDP, m.len + UDP⟩
    (by simp only; omega) IPPROTO_UDP dip (by decide) hdip hlen
  rw [net_tx_udp_eq (by omega)]
  exact ⟨f, hf, (udpHeader_framed m (by omega) sport dport).trans hframed⟩

theorem net_tx_udp_sends (hroom : ETH + IP + UDP ≤ m.head) {sport dport : Nat}
    (hsport : sport < 2 ^ 16) (hdport : dport < 2 ^ 16) (hlen : m.len + UDP + IP < 2 ^ 16) :
    ∃ f, net_tx_udp m local_ip sport dport = some f ∧ Framed m f (ETH + IP + UDP) ∧ Datagram f ∧
      be32 f.buf (f.head + 26) = local_ip ∧ be16 f.buf (f.head + 34) = sport ∧
      be16 f.buf (f.head + 36) = dport ∧ be16 f.buf (f.head + 38) = m.len + UDP := by
  rw [net_tx_udp_eq (by omega)]
  obtain ⟨f, hf, hframed, htype, hip⟩ := @net_tx_ip_framed
    ⟨udpHeader m.buf (m.head - UDP) sport dport (m.len + UDP), m.head - UDP, m.len + UDP⟩
    (by simp only; omega) IPPROTO_UDP local_ip (by decide) (by decide) hlen
  have hudp := udpHeader_framed m (by omega) sport dport
  have hhead : f.head + 34 = m.head - UDP := hframed.head
  have hflen : f.len = m.len + UDP + (ETH + IP) := hframed.len
  have hrest : ∀ x, m.head - UDP ≤ x →
      f.buf x = udpHeader m.buf (m.head - UDP) sport dport (m.len + UDP) x := hframed.rest
  have hfield : ∀ k, be16 f.buf (f.head + 34 + k) =
      be16 (udpHeader m.buf (m.head - UDP) sport dport (m.len + UDP)) (m.head - UDP + k) := by
    intro k
    rw [hhead]
    exact be16_congr fun i _ => hrest _ (by omega)
  have hulen : be16 f.buf (f.head + 38) = m.len + UDP := by
    have hlt : m.len + UDP < 2 ^ 16 := by omega
    rw [hfield 4, udpHeader, be16_store_other _ (by omega), Nat.mod_eq_of_lt hlt,
      be16_store _ _ hlt]
  refine ⟨f, hf, hudp.trans hframed, ⟨?_, htype, hip.vhl, ?_, hip.unfragmented, hip.dst, hip.proto,
    ?_, ?_, ?_⟩, hip.src, ?_, ?_, hulen⟩
  · omega
  · have hlt := wordSum_lt f.buf 10 (f.head + 14)
    have hcksum : complement (wordSum f.buf (f.head + 14) 10) = 0 := hip.cksum
    exact (complement_eq_zero (by omega)).mp hcksum
  · rw [hulen, add_comm IP]
    exact hip.total
  · omega
  · omega
  · rw [hfield 0, add_zero, udpHeader, be16_store_other _ (by omega),
      be16_store_other _ (by omega), be16_store_other _ (by omega), be16_store _ _ hsport]
  · rw [hfield 2, udpHeader, be16_store_other _ (by omega), be16_store_other _ (by omega),
      be16_store _ _ hdport]

structure Carried (f g : Mbuf) : Prop where
  len : f.len ≤ g.len
  same : ∀ i < f.len, g.buf (g.head + i) = f.buf (f.head + i)

theorem carried_received (f : Mbuf) (pad : List UInt8) : Carried f (received (f.data ++ pad)) where
  len := by simp [received, Mbuf.data, bytes]
  same i hi := by
    have hdata : i < f.data.length := by simpa [Mbuf.data, bytes] using hi
    simp only [received, zero_add]
    rw [getD_eq_getElem?_getD, getElem?_append_left hdata, getElem?_eq_getElem hdata,
      getD_some]
    simp [Mbuf.data, bytes]

section Carried
variable {f g : Mbuf}

theorem Carried.be16 (h : Carried f g) {k : Nat} (hk : k + 2 ≤ f.len) :
    be16 g.buf (g.head + k) = be16 f.buf (f.head + k) :=
  be16_congr fun i hi => by
    rw [add_assoc, add_assoc]
    exact h.same (k + i) (by omega)

theorem Carried.be32 (h : Carried f g) {k : Nat} (hk : k + 4 ≤ f.len) :
    be32 g.buf (g.head + k) = be32 f.buf (f.head + k) :=
  be32_congr fun i hi => by
    rw [add_assoc, add_assoc]
    exact h.same (k + i) (by omega)

theorem Carried.wordSum (h : Carried f g) (hroom : ETH + IP ≤ f.len) :
    wordSum g.buf (g.head + 14) 10 = wordSum f.buf (f.head + 14) 10 := by
  simp only [ETH, IP] at hroom
  refine wordSum_congr 10 _ _ fun i hi => ?_
  have h0 := h.same (14 + 2 * i) (by omega)
  have h1 := h.same (14 + 2 * i + 1) (by omega)
  simp only [← add_assoc] at h0 h1
  rw [load, load, load, load, load, load, h0, h1]

theorem Datagram.carried (hf : Datagram f) (h : Carried f g) : Datagram g := by
  have hroom : 42 ≤ f.len := hf.room
  have hulen : Net.be16 g.buf (g.head + 38) = Net.be16 f.buf (f.head + 38) := h.be16 (by omega)
  constructor
  · exact le_trans hf.room h.len
  · rw [h.be16 (by omega), hf.type]
  · rw [h.same 14 (by omega), hf.vhl]
  · rw [h.wordSum (by simp only [ETH, IP]; omega)]
    exact hf.cksum
  · rw [h.be16 (by omega), hf.unfragmented]
  · rw [h.be32 (by omega), hf.dst]
  · rw [h.same 23 (by omega), hf.proto]
  · rw [hulen, h.be16 (by omega), hf.total]
  · rw [hulen]
    exact hf.ulen
  · rw [hulen]
    exact le_trans hf.fits h.len

theorem Carried.payload (h : Carried f g) (hf : Datagram f) : g.payload.data = f.payload.data := by
  have hroom : 42 ≤ f.len := hf.room
  have hfits := hf.fits
  have hulen : Net.be16 g.buf (g.head + 38) = Net.be16 f.buf (f.head + 38) := h.be16 (by omega)
  simp only [Mbuf.data, Mbuf.payload, hulen, ETH, IP, UDP] at *
  apply bytes_congr
  intro i hi
  have hsame := h.same (42 + i) (by omega)
  rw [← add_assoc, ← add_assoc] at hsame
  exact hsame

end Carried

theorem sockwrite_some {payload : List UInt8}
    (h : payload.length ≤ MBUF_SIZE - MBUF_DEFAULT_HEADROOM) :
    sockwrite payload = some ⟨put (fun _ => 0) MBUF_DEFAULT_HEADROOM payload, MBUF_DEFAULT_HEADROOM,
      payload.length⟩ := by
  have hlen : (0 + payload.length) % 2 ^ 32 = payload.length := by
    simp only [MBUF_SIZE] at h
    omega
  rw [sockwrite, mbufalloc, if_neg (by decide), bind_some, mbufput, hlen, if_neg (by omega)]
  rfl

/-- A datagram to the local address arrives as it was sent, whatever the link appends to it. -/
theorem udp_round_trip (payload : List UInt8)
    (h : payload.length ≤ MBUF_SIZE - MBUF_DEFAULT_HEADROOM) (sport dport : UInt16)
    (pad : List UInt8) : ∃ m f m', sockwrite payload = some m ∧
      net_tx_udp m local_ip sport.toNat dport.toNat = some f ∧
      net_rx (received (f.data ++ pad)) = some (.recvudp m' local_ip dport.toNat sport.toNat) ∧
      m'.data = payload := by
  obtain ⟨f, hf, hframed, hdata, hsrc, hsport, hdport, hulen⟩ :=
    net_tx_udp_sends (m := ⟨put (fun _ => 0) MBUF_DEFAULT_HEADROOM payload, MBUF_DEFAULT_HEADROOM,
      payload.length⟩) (show 42 ≤ 128 by decide) sport.toNat_lt dport.toNat_lt
      (by simp only [MBUF_SIZE, UDP, IP] at *; omega)
  have hcarried := carried_received f pad
  have hroom : 42 ≤ f.len := hdata.room
  refine ⟨_, f, (received (f.data ++ pad)).payload, sockwrite_some h, hf, ?_, ?_⟩
  · rw [net_rx_delivers (hdata.carried hcarried), Mbuf.delivery, hcarried.be32 (by omega),
      hcarried.be16 (by omega), hcarried.be16 (by omega), hsrc, hsport, hdport]
  · rw [hcarried.payload hdata, Mbuf.data, Mbuf.payload, hulen, hframed.head, Nat.add_sub_cancel,
      bytes_congr fun i _ => hframed.rest _ (Nat.le_add_right _ i)]
    exact bytes_put _ _ payload

theorem udp_round_trip_padded :
    ∃ m f m', sockwrite [0x68, 0x69] = some m ∧ net_tx_udp m local_ip 2000 25603 = some f ∧
      net_rx (received (f.data ++ [0, 0, 0])) = some (.recvudp m' local_ip 25603 2000) ∧
      m'.data = [0x68, 0x69] :=
  udp_round_trip [0x68, 0x69] (by decide) 2000 25603 [0, 0, 0]

/-! ### Any length -/

/-- What a call returns, `none` for a panic; the frame sent; and the mbuf after `mbufalloc`,
after `mbufput` and with all headers. -/
structure SockWrite where
  ret : Option Int
  frame : Option Mbuf
  seen : List Mbuf

/-- `page`: `kalloc` has a page; `src`: what can be read of the user's bytes. -/
def sockwriteCall (page : Bool) (src : Nat → Option UInt8) (n : BitVec 32)
    (raddr lport rport : Nat) : SockWrite :=
  match if page then mbufalloc MBUF_DEFAULT_HEADROOM else none with
  | none => ⟨some (-1), none, []⟩
  | some m =>
    match mbufput m n.toNat with
    | none => ⟨none, none, [m]⟩
    | some (p, m') =>
      if (List.range n.toNat).all fun i => (src i).isSome then
        let bs := (List.range n.toNat).map fun i => (src i).getD 0
        match net_tx_udp { m' with buf := put m'.buf p bs } raddr lport rport with
        | none => ⟨none, none, [m, m']⟩
        | some f => ⟨some n.toInt, some f, [m, m', f]⟩
      else ⟨some (-1), none, [m, m']⟩

/-- With a page, and bytes that can be read, it sends the packet of `sockwrite`. -/
theorem sockwriteCall_frame {payload : List UInt8} (h : payload.length < 2 ^ 32)
    (raddr lport rport : Nat) :
    (sockwriteCall true (payload[·]?) (BitVec.ofNat 32 payload.length) raddr lport rport).frame =
      (sockwrite payload).bind fun m => net_tx_udp m raddr lport rport := by
  have hn : (BitVec.ofNat 32 payload.length).toNat = payload.length := Nat.mod_eq_of_lt h
  have hbytes : (List.range payload.length).map (fun i => (payload[i]?).getD 0) = payload :=
    List.ext_getElem (by simp) fun i _ hi => by simp [getElem?_eq_getElem hi]
  rw [sockwrite, sockwriteCall, if_pos rfl, hn]
  cases mbufalloc MBUF_DEFAULT_HEADROOM with
  | none => rfl
  | some m =>
    simp only [hbytes, bind_some]
    cases mbufput m payload.length with
    | none => rfl
    | some r =>
      dsimp only [Option.map_some, bind_some]
      rw [if_pos (by simp)]
      cases net_tx_udp { r.2 with buf := put r.2.buf r.1 payload } raddr lport rport <;> rfl

/-- The frame with the user's bytes was sent, or none; the packet stayed in the buffer. -/
def SockWrite.Ok (w : SockWrite) (src : Nat → Option UInt8) (n : BitVec 32) : Prop :=
  (w.ret = some (-1) ∧ w.frame = none ∨ w.ret = some n.toInt ∧ 0 ≤ n.toInt ∧ ∃ f, w.frame = some f ∧
    f.len = n.toNat + (ETH + IP + UDP) ∧
    ∀ i < n.toNat, src i = some (f.buf (f.head + (ETH + IP + UDP) + i))) ∧
  ∀ m ∈ w.seen, m.head + m.len ≤ MBUF_SIZE

/-- `mbufput` compares the length with the whole buffer, though the packet starts behind the
headroom, and it panics where `sockwrite` should refuse. -/
theorem sockwrite_in_bounds_iff (page : Bool) (src : Nat → Option UInt8) (n : BitVec 32)
    (raddr : UInt32) (lport rport : UInt16) :
    (sockwriteCall page src n raddr.toNat lport.toNat rport.toNat).Ok src n ↔
      page = false ∨ 0 ≤ n.toInt ∧ n.toInt ≤ MBUF_SIZE - MBUF_DEFAULT_HEADROOM := by
  have hint : n.toInt = if 2 * n.toNat < 2 ^ 32 then (n.toNat : Int) else n.toNat - 2 ^ 32 :=
    n.toInt_eq_toNat_cond
  simp only [MBUF_SIZE, MBUF_DEFAULT_HEADROOM]
  cases page with
  | false => simp [sockwriteCall, SockWrite.Ok]
  | true =>
    simp only [sockwriteCall, if_true, mbufalloc, MBUF_DEFAULT_HEADROOM, MBUF_SIZE, mbufput,
      show ¬ 128 > 2048 by decide, if_false, zero_add, n.toNat_mod_cancel, Bool.true_eq_false,
      false_or]
    by_cases hbig : n.toNat > 2048
    · rw [if_pos hbig]
      refine iff_of_false ?_ (by omega)
      rintro ⟨⟨h, -⟩ | ⟨h, -⟩, -⟩ <;> cases h
    rw [if_neg hbig]
    simp only [List.all_eq_true, mem_range]
    by_cases hfit : n.toNat ≤ 1920
    · refine iff_of_true ?_ (by omega)
      by_cases hsrc : ∀ i < n.toNat, (src i).isSome = true
      · obtain ⟨f, hf, hframed⟩ := @net_tx_udp_framed
          ⟨put (fun _ => 0) 128 ((List.range n.toNat).map fun i => (src i).getD 0), 128, n.toNat⟩
          (show 42 ≤ 128 by decide) _ raddr.toNat_lt lport.toNat rport.toNat
          (by simp only [UDP, IP]; omega)
        have hhead : f.head + (ETH + IP + UDP) = 128 := hframed.head
        rw [if_pos hsrc, add_zero, hf]
        refine ⟨.inr ⟨rfl, by omega, f, rfl, hframed.len, fun i hi => ?_⟩, ?_⟩
        · obtain ⟨b, hb⟩ := isSome_iff_exists.mp (hsrc i hi)
          rw [hhead, hframed.rest _ (Nat.le_add_right 128 i)]
          simp [put, hi, hb]
        · have hlen : f.len = n.toNat + (ETH + IP + UDP) := hframed.len
          simp only [mem_cons, not_mem_nil, or_false, forall_eq_or_imp, forall_eq, MBUF_SIZE]
          omega
      · rw [if_neg hsrc]
        refine ⟨.inl ⟨rfl, rfl⟩, ?_⟩
        simp only [mem_cons, not_mem_nil, or_false, forall_eq_or_imp, forall_eq, MBUF_SIZE]
        omega
    · refine iff_of_false ?_ (by omega)
      rintro ⟨-, hseen⟩
      have hput := hseen ⟨fun _ => 0, 128, n.toNat⟩ (by split <;> [split <;> simp; simp])
      simp only [MBUF_SIZE] at hput
      omega

theorem sockwrite_negative_panics :
    (sockwriteCall true (fun _ => some 0) (-1) 0 2000 25603).ret = none := by
  decide

end Transmit

end BirdOS.Net
