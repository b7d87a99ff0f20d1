import Mathlib.Data.List.Basic

/-!
# DHCP packets: composing, validating and decoding the options

`dhcp_mbuf` (`core/dhcp.cc`) wraps the mbuf of one DHCP packet: an IP header of `ip_hl`
words, a UDP header, the fixed `struct dhcp_packet` of `236` bytes, the four-byte options magic
and the options.  `compose_discover` and `compose_request` write a client's packet, with the
options `add_option` appends and `build_udp_ip_headers`.  `is_valid_dhcp` accepts a packet
that is long enough, carries UDP to the client port and has the magic; `decode` then reads
`yiaddr` and walks the options with the macros `LENGTH_OK` and `PARSE_OP`.

**The model.**  A packet is the list of its `m_len` bytes, and a read is `bs[i]?`, `none` for a
read at or past `m_len`; `decode` returns `none` when it reads there or when its loop runs out
of the fuel it is given, `m_len` passes, and otherwise its `bool` with the decoded fields.
Multi-byte values are read as the source reads them: `ntohs` and `ntohl` of a `u16` or `u32`,
big-endian, and `xid`, which is stored and read in host order, little-endian on x86.  The
options of RFC 2132, `DhcpOption`, with their encoding and the decoder the RFC describes,
`rfcDecode`, are the specification.

**What holds.**  On a packet `is_valid_dhcp` accepts, `decode` reads only bytes below `m_len` and
returns (`decode_of_isValidDhcp`).  Decoding what `compose_request` and `compose_discover` write
gives back the message type, and for a request the server and `xid`
(`decode_composeRequest`, `decode_composeDiscover`).

**What does not** (`dhcp_decode_two_dns_servers`).  The loop condition adds the length of the
option just read to the position already past it, so a long option near the end of the packet
stops the walk early; and `DHCP_OPTION_DOMAIN_NAME_SERVERS` reads one server.  A reply whose
options are two DNS servers, the message type and `END` decodes to one server and no message
type.  The loop's `op != DHCP_OPTION_END` tests the outer `op`, which the body shadows, so
`END` does not stop the walk either, and `PAD` is read with a length byte.
-/

namespace Osv.Core.Dhcp

/-! ## Constants -/

/-- `DHCP_OPTION_PAD` -/
def DHCP_OPTION_PAD : UInt8 := 0
/-- `DHCP_OPTION_SUBNET_MASK` -/
def DHCP_OPTION_SUBNET_MASK : UInt8 := 1
/-- `DHCP_OPTION_ROUTER` -/
def DHCP_OPTION_ROUTER : UInt8 := 3
/-- `DHCP_OPTION_DOMAIN_NAME_SERVERS` -/
def DHCP_OPTION_DOMAIN_NAME_SERVERS : UInt8 := 6
/-- `DHCP_OPTION_INTERFACE_MTU` -/
def DHCP_OPTION_INTERFACE_MTU : UInt8 := 26
/-- `DHCP_OPTION_BROADCAST_ADDRESS` -/
def DHCP_OPTION_BROADCAST_ADDRESS : UInt8 := 28
/-- `DHCP_OPTION_REQUESTED_ADDRESS` -/
def DHCP_OPTION_REQUESTED_ADDRESS : UInt8 := 50
/-- `DHCP_OPTION_LEASE_TIME` -/
def DHCP_OPTION_LEASE_TIME : UInt8 := 51
/-- `DHCP_OPTION_MESSAGE_TYPE` -/
def DHCP_OPTION_MESSAGE_TYPE : UInt8 := 53
/-- `DHCP_OPTION_DHCP_SERVER` -/
def DHCP_OPTION_DHCP_SERVER : UInt8 := 54
/-- `DHCP_OPTION_PARAMETER_REQUEST_LIST` -/
def DHCP_OPTION_PARAMETER_REQUEST_LIST : UInt8 := 55
/-- `DHCP_OPTION_RENEWAL_TIME` -/
def DHCP_OPTION_RENEWAL_TIME : UInt8 := 58
/-- `DHCP_OPTION_REBINDING_TIME` -/
def DHCP_OPTION_REBINDING_TIME : UInt8 := 59
/-- `DHCP_OPTION_END` -/
def DHCP_OPTION_END : UInt8 := 255

/-- `DHCP_MT_DISCOVER` -/
def DHCP_MT_DISCOVER : UInt8 := 1
/-- `DHCP_MT_OFFER` -/
def DHCP_MT_OFFER : UInt8 := 2
/-- `DHCP_MT_REQUEST` -/
def DHCP_MT_REQUEST : UInt8 := 3
/-- `DHCP_MT_INVALID` -/
def DHCP_MT_INVALID : UInt8 := 255

/-- `BOOTREQUEST` -/
def BOOTREQUEST : UInt8 := 1
/-- `HTYPE_ETHERNET` -/
def HTYPE_ETHERNET : UInt8 := 1
/-- `ETHER_ADDR_LEN` -/
def ETHER_ADDR_LEN : UInt8 := 6
/-- `IPPROTO_UDP` -/
def IPPROTO_UDP : UInt8 := 17
/-- `dhcp_client_port` -/
def dhcpClientPort : ℕ := 68
/-- `dhcp_server_port` -/
def dhcpServerPort : ℕ := 67

/-- `min_ip_len`, `sizeof(struct ip)` -/
def minIpLen : ℕ := 20
/-- `udp_len`, `sizeof(struct udphdr)` -/
def udpLen : ℕ := 8
/-- `dhcp_bootp_len`, `sizeof(struct dhcp_packet)` -/
def dhcpBootpLen : ℕ := 236
/-- `min_dhcp_len`: the `dhcp_packet` and the options magic. -/
def minDhcpLen : ℕ := dhcpBootpLen + 4
/-- `dhcp_options_magic` -/
def dhcpOptionsMagic : List UInt8 := [0x63, 0x82, 0x53, 0x63]

/-! ## Bytes -/

/-- An `ip::address_v4`, by its four bytes in network order. -/
structure IpV4 where
  b0 : UInt8
  b1 : UInt8
  b2 : UInt8
  b3 : UInt8
  deriving DecidableEq, Repr

/-- `ip::address_v4::to_bytes()` -/
def IpV4.bytes (a : IpV4) : List UInt8 := [a.b0, a.b1, a.b2, a.b3]

/-- A MAC address, `IF_LLADDR(ifp)`: `ETHER_ADDR_LEN` bytes. -/
structure MacAddr where
  bytes : List UInt8
  length_eq : bytes.length = 6

/-- The four bytes of an address at `i`. -/
def readIp (bs : List UInt8) (i : ℕ) : Option IpV4 := do
  some ⟨← bs[i]?, ← bs[i + 1]?, ← bs[i + 2]?, ← bs[i + 3]?⟩

/-- `ntohs(*(u16 *)p)` at `i`. -/
def readBe16 (bs : List UInt8) (i : ℕ) : Option UInt16 := do
  some ((← bs[i]?).toUInt16 * 256 + (← bs[i + 1]?).toUInt16)

/-- `ntohl(*(u32 *)p)` at `i`. -/
def readBe32 (bs : List UInt8) (i : ℕ) : Option UInt32 := do
  some ((← bs[i]?).toUInt32 * 16777216 + (← bs[i + 1]?).toUInt32 * 65536 +
    (← bs[i + 2]?).toUInt32 * 256 + (← bs[i + 3]?).toUInt32)

/-- A `u32` as x86 stores it. -/
def le32 (v : UInt32) : List UInt8 :=
  [v.toUInt8, (v >>> 8).toUInt8, (v >>> 16).toUInt8, (v >>> 24).toUInt8]

/-- A `u32` read in host order at `i`. -/
def readLe32 (bs : List UInt8) (i : ℕ) : Option UInt32 := do
  some ((← bs[i]?).toUInt32 + (← bs[i + 1]?).toUInt32 * 256 +
    (← bs[i + 2]?).toUInt32 * 65536 + (← bs[i + 3]?).toUInt32 * 16777216)

/-- `htons(n)`, as the two bytes it puts in the packet. -/
def be16 (n : ℕ) : List UInt8 := [(n / 256).toUInt8, n.toUInt8]

/-! ## Composing a client's packet -/

/-- The 16-bit one's complement sum of `in_cksum` over the big-endian words of `bs`, with the
carries folded back in. -/
def cksumSum : List UInt8 → ℕ
  | a :: b :: rest => a.toNat * 256 + b.toNat + cksumSum rest
  | [a] => a.toNat * 256
  | [] => 0

/-- `in_cksum(m, len)` over the bytes `bs`: the complement of their folded sum. -/
def inCksum (bs : List UInt8) : ℕ :=
  let s := cksumSum bs
  let s := s % 65536 + s / 65536
  let s := s % 65536 + s / 65536
  65535 - s

/-- `build_udp_ip_headers(dhcp_len)`: the IP header, with its checksum over its own `20`
bytes, and the UDP header, from the client port to the server port. -/
def buildUdpIpHeaders (dhcpLen : ℕ) : List UInt8 :=
  let total := minIpLen + udpLen + dhcpLen
  -- `ip_v` `4` and `ip_hl` `5` share the first byte; `ip_ttl` `128`, `ip_p` `IPPROTO_UDP`,
  -- `ip_src` `INADDR_ANY`, `ip_dst` `INADDR_BROADCAST`
  let ip (sum : ℕ) : List UInt8 :=
    [0x45, 0] ++ be16 total ++ [0, 0, 0, 0, 128, IPPROTO_UDP] ++ be16 sum ++
      [0, 0, 0, 0, 255, 255, 255, 255]
  ip (inCksum (ip 0)) ++ be16 dhcpClientPort ++ be16 dhcpServerPort ++
    be16 (udpLen + dhcpLen) ++ [0, 0]

/-- `add_option(pos, type, len, buf)`: the type, the length and `len` bytes of `buf`. -/
def addOption (type len : UInt8) (buf : List UInt8) : List UInt8 :=
  type :: len :: buf.take len.toNat

/-- The `dhcp_packet` a client sends after `*pkt = {}`: the header fields, `xid` and `chaddr`. -/
def bootRequest (mac : MacAddr) (xid : UInt32) : List UInt8 :=
  [BOOTREQUEST, HTYPE_ETHERNET, ETHER_ADDR_LEN, 0] ++ le32 xid ++ List.replicate 20 0 ++
    mac.bytes ++ List.replicate 202 0

/-- A packet with the `dhcp_packet` `boot` and the options `options`, headers first. -/
def composePacket (boot options : List UInt8) : List UInt8 :=
  buildUdpIpHeaders (boot.length + options.length) ++ boot ++ options

/-- `compose_discover(ifp)`, with `rand()`'s `xid`: the message type and the parameters the
client asks for. -/
def composeDiscover (mac : MacAddr) (xid : UInt32) : List UInt8 :=
  composePacket (bootRequest mac xid)
    (dhcpOptionsMagic ++ addOption DHCP_OPTION_MESSAGE_TYPE 1 [DHCP_MT_DISCOVER] ++
      addOption DHCP_OPTION_PARAMETER_REQUEST_LIST 5
        [DHCP_OPTION_SUBNET_MASK, DHCP_OPTION_ROUTER, DHCP_OPTION_DOMAIN_NAME_SERVERS,
          DHCP_OPTION_INTERFACE_MTU, DHCP_OPTION_BROADCAST_ADDRESS] ++ [DHCP_OPTION_END])

/-- `compose_request(ifp, xid, yip, sip)`: the message type, the server and the address asked
for. -/
def composeRequest (mac : MacAddr) (xid : UInt32) (yip sip : IpV4) : List UInt8 :=
  composePacket (bootRequest mac xid)
    (dhcpOptionsMagic ++ addOption DHCP_OPTION_MESSAGE_TYPE 1 [DHCP_MT_REQUEST] ++
      addOption DHCP_OPTION_DHCP_SERVER 4 sip.bytes ++
      addOption DHCP_OPTION_REQUESTED_ADDRESS 4 yip.bytes ++ [DHCP_OPTION_END])

/-! ## Validating and decoding -/

/-- `decode_ip_len()`: `_ip_len = ip->ip_hl << 2`, `ip_hl` being the low nibble of the first
byte. -/
def decodeIpLen (bs : List UInt8) : Option ℕ :=
  (bs[0]?).map fun b => (b &&& 0x0f).toNat * 4

/-- `is_valid_dhcp()`: long enough for the headers, the `dhcp_packet` and the magic, UDP to the
client port, and the magic in place. -/
def isValidDhcp (bs : List UInt8) : Bool :=
  match decodeIpLen bs with
  | none => false
  | some ipLen =>
      decide (ipLen + udpLen + minDhcpLen ≤ bs.length) && bs[9]? == some IPPROTO_UDP &&
        (bs.drop (ipLen + 2)).take 2 == be16 dhcpClientPort &&
        (bs.drop (ipLen + udpLen + dhcpBootpLen)).take 4 == dhcpOptionsMagic

/-- `get_xid()`, with the `_ip_len` of the object. -/
def getXid (bs : List UInt8) (ipLen : ℕ) : Option UInt32 :=
  readLe32 bs (ipLen + udpLen + 4)

/-- The fields `decode` fills. -/
structure DhcpFields where
  messageType : UInt8
  routerIp : IpV4
  dhcpServerIp : IpV4
  dnsIps : List IpV4
  subnetMask : IpV4
  broadcastIp : IpV4
  yourIp : IpV4
  leaseTimeSec : UInt32
  renewalTimeSec : UInt32
  rebindTimeSec : UInt32
  mtu : UInt16
  deriving DecidableEq, Repr

/-- The fields of a new `dhcp_mbuf`: `DHCP_MT_INVALID`, zero times and MTU, and addresses as
`address_v4()` makes them. -/
def DhcpFields.init : DhcpFields :=
  ⟨DHCP_MT_INVALID, ⟨0, 0, 0, 0⟩, ⟨0, 0, 0, 0⟩, [], ⟨0, 0, 0, 0⟩, ⟨0, 0, 0, 0⟩, ⟨0, 0, 0, 0⟩,
    0, 0, 0, 0⟩

/-- `PARSE_OP(type, cast, var)` for a value at `pos` of `opLen` bytes, inside the loop where
`len_check_hdr` is `0`: the value needs `size` bytes and must end before `m_len`, or `decode`
returns `false`; `read` is the assignment. -/
def parseOp (bs : List UInt8) (pos opLen size : ℕ) (d : DhcpFields)
    (read : Option DhcpFields) : Option (Bool × DhcpFields) :=
  if size ≤ opLen ∧ pos + opLen < bs.length then read.map ((true, ·)) else some (false, d)

/-- The `switch (op)` of `decode`, for the value of `opLen` bytes at `pos`. -/
def parseOption (bs : List UInt8) (pos : ℕ) (op : UInt8) (opLen : ℕ) (d : DhcpFields) :
    Option (Bool × DhcpFields) :=
  if op = DHCP_OPTION_MESSAGE_TYPE then
    parseOp bs pos opLen 1 d ((bs[pos]?).map fun v => { d with messageType := v })
  else if op = DHCP_OPTION_SUBNET_MASK then
    parseOp bs pos opLen 4 d ((readIp bs pos).map fun v => { d with subnetMask := v })
  else if op = DHCP_OPTION_ROUTER then
    parseOp bs pos opLen 4 d ((readIp bs pos).map fun v => { d with routerIp := v })
  else if op = DHCP_OPTION_DHCP_SERVER then
    parseOp bs pos opLen 4 d ((readIp bs pos).map fun v => { d with dhcpServerIp := v })
  else if op = DHCP_OPTION_DOMAIN_NAME_SERVERS then
    parseOp bs pos opLen 4 d ((readIp bs pos).map fun v => { d with dnsIps := d.dnsIps ++ [v] })
  else if op = DHCP_OPTION_INTERFACE_MTU then
    parseOp bs pos opLen 2 d ((readBe16 bs pos).map fun v => { d with mtu := v })
  else if op = DHCP_OPTION_BROADCAST_ADDRESS then
    parseOp bs pos opLen 4 d ((readIp bs pos).map fun v => { d with broadcastIp := v })
  else if op = DHCP_OPTION_LEASE_TIME then
    parseOp bs pos opLen 4 d ((readBe32 bs pos).map fun v => { d with leaseTimeSec := v })
  else if op = DHCP_OPTION_RENEWAL_TIME then
    parseOp bs pos opLen 4 d ((readBe32 bs pos).map fun v => { d with renewalTimeSec := v })
  else if op = DHCP_OPTION_REBINDING_TIME then
    parseOp bs pos opLen 4 d ((readBe32 bs pos).map fun v => { d with rebindTimeSec := v })
  else some (true, d)

/-- The `while` loop of `decode`: `pos` is `options - packet_start`, and `opLen` and
`lenCheckHdr` the variables `LENGTH_OK` reads.  `outerOp` is the `op` of the loop condition,
declared before the loop; the body reads the option code into an `op` of its own. -/
def decodeLoop (bs : List UInt8) (outerOp : UInt8) (fuel pos opLen lenCheckHdr : ℕ)
    (d : DhcpFields) : Option (Bool × DhcpFields) :=
  if pos + opLen + lenCheckHdr < bs.length ∧ outerOp ≠ DHCP_OPTION_END then
    match fuel with
    | 0 => none
    | fuel + 1 =>
        (bs[pos]?).bind fun op => (bs[pos + 1]?).bind fun len =>
          (parseOption bs (pos + 2) op len.toNat d).bind fun (ok, d) =>
            if ok then decodeLoop bs outerOp fuel (pos + 2 + len.toNat) len.toNat 2 d
            else some (false, d)
  else some (true, d)

/-- `decode()` of a `dhcp_mbuf` whose fields are `d`: `yiaddr`, then the options after the
magic, the DNS list cleared first. -/
def decode (bs : List UInt8) (d : DhcpFields) : Option (Bool × DhcpFields) :=
  (decodeIpLen bs).bind fun ipLen => (readIp bs (ipLen + udpLen + 16)).bind fun yourIp =>
    decodeLoop bs DHCP_OPTION_PAD bs.length (ipLen + udpLen + dhcpBootpLen + 4) 0 2
      { d with dnsIps := [], yourIp }

/-! ## What RFC 2132 says the options are -/

/-- An option of RFC 2132: the one-byte `PAD` and `END`, and the others with a length byte. -/
inductive DhcpOption where
  | pad
  | tlv (code : UInt8) (value : List UInt8)
  | «end»
  deriving DecidableEq, Repr

/-- The bytes of an option. -/
def DhcpOption.encode : DhcpOption → List UInt8
  | .pad => [DHCP_OPTION_PAD]
  | .tlv code value => code :: value.length.toUInt8 :: value
  | .end => [DHCP_OPTION_END]

/-- The addresses an option value lists, four bytes each. -/
def ipList : List UInt8 → List IpV4
  | a :: b :: c :: e :: rest => ⟨a, b, c, e⟩ :: ipList rest
  | _ => []

/-- What one option sets, as RFC 2132 defines it. -/
def rfcOption (d : DhcpFields) (code : UInt8) (value : List UInt8) : DhcpFields :=
  let ip : IpV4 := ⟨value.getD 0 0, value.getD 1 0, value.getD 2 0, value.getD 3 0⟩
  let be32 : UInt32 := (value.getD 0 0).toUInt32 * 16777216 + (value.getD 1 0).toUInt32 * 65536 +
    (value.getD 2 0).toUInt32 * 256 + (value.getD 3 0).toUInt32
  if code = DHCP_OPTION_MESSAGE_TYPE then { d with messageType := value.getD 0 0 }
  else if code = DHCP_OPTION_SUBNET_MASK then { d with subnetMask := ip }
  else if code = DHCP_OPTION_ROUTER then { d with routerIp := ip }
  else if code = DHCP_OPTION_DHCP_SERVER then { d with dhcpServerIp := ip }
  else if code = DHCP_OPTION_DOMAIN_NAME_SERVERS then { d with dnsIps := d.dnsIps ++ ipList value }
  else if code = DHCP_OPTION_INTERFACE_MTU then
    { d with mtu := (value.getD 0 0).toUInt16 * 256 + (value.getD 1 0).toUInt16 }
  else if code = DHCP_OPTION_BROADCAST_ADDRESS then { d with broadcastIp := ip }
  else if code = DHCP_OPTION_LEASE_TIME then { d with leaseTimeSec := be32 }
  else if code = DHCP_OPTION_RENEWAL_TIME then { d with renewalTimeSec := be32 }
  else if code = DHCP_OPTION_REBINDING_TIME then { d with rebindTimeSec := be32 }
  else d

/-- The options as RFC 2132 reads them: in order, `PAD` skipped, up to `END`. -/
def rfcDecode : List DhcpOption → DhcpFields → DhcpFields
  | [], d => d
  | .pad :: os, d => rfcDecode os d
  | .tlv code value :: os, d => rfcDecode os (rfcOption d code value)
  | .end :: _, d => d

/-! ## The loop, one pass at a time -/

section Loop

variable {bs : List UInt8} {o : UInt8} {pos opLen lh : ℕ} {d : DhcpFields}

theorem decodeLoop_stop (fuel : ℕ) (h : ¬ (pos + opLen + lh < bs.length ∧ o ≠ DHCP_OPTION_END)) :
    decodeLoop bs o fuel pos opLen lh d = some (true, d) := by
  -- at a fuel that is a constructor the loop unfolds, by definition, to its test
  cases fuel <;> exact if_neg h

theorem decodeLoop_step (fuel : ℕ) (h : pos + opLen + lh < bs.length ∧ o ≠ DHCP_OPTION_END) :
    decodeLoop bs o (fuel + 1) pos opLen lh d =
      (bs[pos]?).bind fun op => (bs[pos + 1]?).bind fun len =>
        (parseOption bs (pos + 2) op len.toNat d).bind fun (ok, d) =>
          if ok then decodeLoop bs o fuel (pos + 2 + len.toNat) len.toNat 2 d
          else some (false, d) :=
  if_pos h

end Loop

/-! ## Reading behind a prefix

The options sit behind the headers, so every read `decode` makes of a packet `pre ++ rest` at
`pre.length + k` is the read of `rest` at `k`. -/

section Shift

variable (pre rest : List UInt8)

theorem getElem?_append_add (k : ℕ) : (pre ++ rest)[pre.length + k]? = rest[k]? := by
  rw [List.getElem?_append_right (Nat.le_add_right _ _), Nat.add_sub_cancel_left]

theorem readIp_append (k : ℕ) : readIp (pre ++ rest) (pre.length + k) = readIp rest k := by
  simp only [readIp, Nat.add_assoc, getElem?_append_add]

theorem readBe16_append (k : ℕ) : readBe16 (pre ++ rest) (pre.length + k) = readBe16 rest k := by
  simp only [readBe16, Nat.add_assoc, getElem?_append_add]

theorem readBe32_append (k : ℕ) : readBe32 (pre ++ rest) (pre.length + k) = readBe32 rest k := by
  simp only [readBe32, Nat.add_assoc, getElem?_append_add]

theorem readLe32_append (k : ℕ) : readLe32 (pre ++ rest) (pre.length + k) = readLe32 rest k := by
  simp only [readLe32, Nat.add_assoc, getElem?_append_add]

theorem parseOp_append (k opLen size : ℕ) (d : DhcpFields) (read : Option DhcpFields) :
    parseOp (pre ++ rest) (pre.length + k) opLen size d read = parseOp rest k opLen size d read := by
  simp only [parseOp, List.length_append, Nat.add_assoc, Nat.add_lt_add_iff_left]

theorem parseOption_append (k : ℕ) (op : UInt8) (opLen : ℕ) (d : DhcpFields) :
    parseOption (pre ++ rest) (pre.length + k) op opLen d = parseOption rest k op opLen d := by
  simp only [parseOption, parseOp_append, readIp_append, readBe16_append, readBe32_append,
    getElem?_append_add]

theorem decodeLoop_append (o : UInt8) (fuel k opLen lh : ℕ) (d : DhcpFields) :
    decodeLoop (pre ++ rest) o fuel (pre.length + k) opLen lh d =
      decodeLoop rest o fuel k opLen lh d := by
  -- the induction is on the fuel, one option per pass; the condition only compares lengths
  induction fuel generalizing k opLen lh d with
  | zero =>
    rw [decodeLoop.eq_def, decodeLoop.eq_def]
    simp only [List.length_append, Nat.add_assoc, Nat.add_lt_add_iff_left]
  | succ fuel ih =>
    by_cases h : k + opLen + lh < rest.length ∧ o ≠ DHCP_OPTION_END
    · have h' : pre.length + k + opLen + lh < (pre ++ rest).length ∧ o ≠ DHCP_OPTION_END := by
        rw [List.length_append]
        exact ⟨by omega, h.2⟩
      rw [decodeLoop_step fuel h', decodeLoop_step fuel h]
      simp only [Nat.add_assoc, getElem?_append_add, parseOption_append, ih]
    · have h' : ¬ (pre.length + k + opLen + lh < (pre ++ rest).length ∧ o ≠ DHCP_OPTION_END) := by
        rw [List.length_append]
        exact fun h' => h ⟨by omega, h'.2⟩
      rw [decodeLoop_stop _ h', decodeLoop_stop _ h]

end Shift

/-! ## `decode` reads only what is there -/

section Total

variable {bs : List UInt8} {i : ℕ}

theorem readIp_isSome (h : i + 4 ≤ bs.length) : (readIp bs i).isSome := by
  simp only [readIp, List.getElem?_eq_getElem (by omega : i < bs.length),
    List.getElem?_eq_getElem (by omega : i + 1 < bs.length),
    List.getElem?_eq_getElem (by omega : i + 2 < bs.length),
    List.getElem?_eq_getElem (by omega : i + 3 < bs.length)]
  rfl

theorem readBe16_isSome (h : i + 2 ≤ bs.length) : (readBe16 bs i).isSome := by
  simp only [readBe16, List.getElem?_eq_getElem (by omega : i < bs.length),
    List.getElem?_eq_getElem (by omega : i + 1 < bs.length)]
  rfl

theorem readBe32_isSome (h : i + 4 ≤ bs.length) : (readBe32 bs i).isSome := by
  simp only [readBe32, List.getElem?_eq_getElem (by omega : i < bs.length),
    List.getElem?_eq_getElem (by omega : i + 1 < bs.length),
    List.getElem?_eq_getElem (by omega : i + 2 < bs.length),
    List.getElem?_eq_getElem (by omega : i + 3 < bs.length)]
  rfl

/-- A `PARSE_OP` whose read of `size` bytes succeeds when they are below `m_len` returns. -/
theorem parseOp_map_isSome {α : Type} {opLen size : ℕ} {d : DhcpFields} (r : Option α)
    (f : α → DhcpFields) (hr : i + size ≤ bs.length → r.isSome) :
    (parseOp bs i opLen size d (r.map f)).isSome := by
  unfold parseOp
  by_cases h : size ≤ opLen ∧ i + opLen < bs.length
  · rw [if_pos h, Option.isSome_map, Option.isSome_map]
    exact hr (by omega)
  · rw [if_neg h]
    rfl

theorem parseOption_isSome (op : UInt8) (opLen : ℕ) (d : DhcpFields) :
    (parseOption bs i op opLen d).isSome := by
  have hb : i + 1 ≤ bs.length → (bs[i]?).isSome := fun h => by
    rw [List.getElem?_eq_getElem (by omega)]
    rfl
  unfold parseOption
  split_ifs
  exacts [parseOp_map_isSome _ _ hb, parseOp_map_isSome _ _ readIp_isSome,
    parseOp_map_isSome _ _ readIp_isSome, parseOp_map_isSome _ _ readIp_isSome,
    parseOp_map_isSome _ _ readIp_isSome, parseOp_map_isSome _ _ readBe16_isSome,
    parseOp_map_isSome _ _ readIp_isSome, parseOp_map_isSome _ _ readBe32_isSome,
    parseOp_map_isSome _ _ readBe32_isSome, parseOp_map_isSome _ _ readBe32_isSome, rfl]

/-- Each pass of the loop moves on by the two bytes of an option's code and length at least,
so fuel for half of what is left of the packet is enough. -/
theorem decodeLoop_isSome (o : UInt8) (fuel pos opLen : ℕ) (d : DhcpFields)
    (h : bs.length ≤ pos + 2 * fuel) : (decodeLoop bs o fuel pos opLen 2 d).isSome := by
  induction fuel generalizing pos opLen d with
  | zero =>
    rw [decodeLoop_stop 0 fun hc => absurd hc.1 (by omega)]
    rfl
  | succ fuel ih =>
    by_cases hc : pos + opLen + 2 < bs.length ∧ o ≠ DHCP_OPTION_END
    · rw [decodeLoop_step fuel hc, List.getElem?_eq_getElem (by omega : pos < bs.length),
        List.getElem?_eq_getElem (by omega : pos + 1 < bs.length), Option.bind_some,
        Option.bind_some]
      obtain ⟨⟨ok, d'⟩, hp⟩ := Option.isSome_iff_exists.mp
        (parseOption_isSome (i := pos + 2) bs[pos] bs[pos + 1].toNat d)
      rw [hp, Option.bind_some]
      cases ok
      · rfl
      · exact ih _ _ _ (by omega)
    · rw [decodeLoop_stop _ hc]
      rfl

/-- On a packet `is_valid_dhcp` accepts, `decode` reads only below `m_len` and returns. -/
theorem decode_of_isValidDhcp (h : isValidDhcp bs = true) (d : DhcpFields) :
    (decode bs d).isSome := by
  unfold isValidDhcp at h
  cases hip : decodeIpLen bs with
  | none =>
    rw [hip] at h
    cases h
  | some ipLen =>
    rw [hip] at h
    have hlen : ipLen + udpLen + minDhcpLen ≤ bs.length := by
      simp only [Bool.and_eq_true, decide_eq_true_eq] at h
      exact h.1.1.1
    have hyip : (readIp bs (ipLen + udpLen + 16)).isSome :=
      readIp_isSome (by simp only [minDhcpLen, dhcpBootpLen] at hlen; omega)
    obtain ⟨yip, hy⟩ := Option.isSome_iff_exists.mp hyip
    rw [decode, hip, Option.bind_some, hy, Option.bind_some]
    exact decodeLoop_isSome _ _ _ _ _ (by omega)

end Total

/-! ## One pass of the loop -/

section Pass

variable {bs : List UInt8} {o op len : UInt8} {fuel pos opLen lh : ℕ} {d d' : DhcpFields}

/-- A pass that reads the option `op` of length `len` at `pos` and parses it moves to the
option `len` bytes after its value, with `opLen` now `len`. -/
theorem decodeLoop_pass (hf : 0 < fuel) (hc : pos + opLen + lh < bs.length)
    (ho : o ≠ DHCP_OPTION_END) (hop : bs[pos]? = some op) (hlen : bs[pos + 1]? = some len)
    (hp : parseOption bs (pos + 2) op len.toNat d = some (true, d')) :
    decodeLoop bs o fuel pos opLen lh d =
      decodeLoop bs o (fuel - 1) (pos + 2 + len.toNat) len.toNat 2 d' := by
  obtain ⟨fuel, rfl⟩ := Nat.exists_eq_add_one_of_ne_zero (Nat.pos_iff_ne_zero.mp hf)
  rw [decodeLoop_step fuel ⟨hc, ho⟩, hop, hlen, Option.bind_some, Option.bind_some, hp,
    Option.bind_some, Nat.add_sub_cancel]
  rfl

theorem parseOption_messageType {v : UInt8} (hlen : 1 ≤ opLen ∧ pos + opLen < bs.length)
    (hv : bs[pos]? = some v) :
    parseOption bs pos DHCP_OPTION_MESSAGE_TYPE opLen d =
      some (true, { d with messageType := v }) := by
  simp +decide only [parseOption, parseOp, hlen, hv, and_self, if_true, Option.map_some]

theorem parseOption_dhcpServer {v : IpV4} (hlen : 4 ≤ opLen ∧ pos + opLen < bs.length)
    (hv : readIp bs pos = some v) :
    parseOption bs pos DHCP_OPTION_DHCP_SERVER opLen d =
      some (true, { d with dhcpServerIp := v }) := by
  simp +decide only [parseOption, parseOp, hlen, hv, and_self, if_true, if_false, Option.map_some]

/-- `DHCP_OPTION_DOMAIN_NAME_SERVERS` appends the one address at the start of the value. -/
theorem parseOption_dns {v : IpV4} (hlen : 4 ≤ opLen ∧ pos + opLen < bs.length)
    (hv : readIp bs pos = some v) :
    parseOption bs pos DHCP_OPTION_DOMAIN_NAME_SERVERS opLen d =
      some (true, { d with dnsIps := d.dnsIps ++ [v] }) := by
  simp +decide only [parseOption, parseOp, hlen, hv, and_self, if_true, if_false, Option.map_some]

/-- The codes without a `case` fall to the empty `default`. -/
theorem parseOption_default
    (hop : op ∉ [DHCP_OPTION_MESSAGE_TYPE, DHCP_OPTION_SUBNET_MASK, DHCP_OPTION_ROUTER,
      DHCP_OPTION_DHCP_SERVER, DHCP_OPTION_DOMAIN_NAME_SERVERS, DHCP_OPTION_INTERFACE_MTU,
      DHCP_OPTION_BROADCAST_ADDRESS, DHCP_OPTION_LEASE_TIME, DHCP_OPTION_RENEWAL_TIME,
      DHCP_OPTION_REBINDING_TIME]) :
    parseOption bs pos op opLen d = some (true, d) := by
  simp only [List.mem_cons, List.not_mem_nil, or_false, not_or] at hop
  obtain ⟨h1, h2, h3, h4, h5, h6, h7, h8, h9, h10⟩ := hop
  simp only [parseOption, h1, h2, h3, h4, h5, h6, h7, h8, h9, h10, if_false]

/-- `PAD` and `END` are read as any other code without a `case`: with a length byte, and `END`
does not stop the walk, since the loop tests the outer `op`, which stays `PAD`. -/
theorem decodeLoop_pad_end (hf : 0 < fuel) (hc : pos + opLen + lh < bs.length)
    (hk : op = DHCP_OPTION_PAD ∨ op = DHCP_OPTION_END) (hop : bs[pos]? = some op)
    (hlen : bs[pos + 1]? = some len) :
    decodeLoop bs DHCP_OPTION_PAD fuel pos opLen lh d =
      decodeLoop bs DHCP_OPTION_PAD (fuel - 1) (pos + 2 + len.toNat) len.toNat 2 d := by
  have hdef : parseOption bs (pos + 2) op len.toNat d = some (true, d) :=
    parseOption_default (by rcases hk with rfl | rfl <;> decide)
  exact decodeLoop_pass hf hc (by decide) hop hlen hdef

end Pass

/-! ## Whole packets -/

section Packet

theorem buildUdpIpHeaders_length (dhcpLen : ℕ) :
    (buildUdpIpHeaders dhcpLen).length = minIpLen + udpLen := rfl

theorem bootRequest_length (mac : MacAddr) (xid : UInt32) :
    (bootRequest mac xid).length = dhcpBootpLen := by
  simp only [bootRequest, le32, List.length_append, List.length_replicate, List.length_cons,
    List.length_nil, mac.length_eq, dhcpBootpLen]

theorem decodeIpLen_append {hdr : List UInt8} (t : List UInt8) (h : 0 < hdr.length) :
    decodeIpLen (hdr ++ t) = decodeIpLen hdr := by
  rw [decodeIpLen, decodeIpLen, List.getElem?_append_left h]

/-- A packet of `IP` and `UDP` headers `hdr` with `ip_hl` five, a `dhcp_packet` and the
magic: `decode` reads `yiaddr` and walks the options after the magic. -/
theorem decode_packet (hdr boot rest : List UInt8) (hhdr : hdr.length = minIpLen + udpLen)
    (hip : decodeIpLen hdr = some minIpLen) (hboot : boot.length = dhcpBootpLen)
    (d : DhcpFields) : ∃ yourIp, decode (hdr ++ boot ++ dhcpOptionsMagic ++ rest) d =
      decodeLoop rest DHCP_OPTION_PAD (minIpLen + udpLen + dhcpBootpLen + 4 + rest.length)
        0 0 2 { d with dnsIps := [], yourIp } := by
  have hpre : (hdr ++ boot ++ dhcpOptionsMagic).length = minIpLen + udpLen + dhcpBootpLen + 4 := by
    simp only [List.length_append, hhdr, hboot, dhcpOptionsMagic, List.length_cons,
      List.length_nil]
  have hip' : decodeIpLen (hdr ++ boot ++ dhcpOptionsMagic ++ rest) = some minIpLen := by
    rw [List.append_assoc, List.append_assoc, decodeIpLen_append _ (by rw [hhdr]; decide), hip]
  have hyip : (readIp (hdr ++ boot ++ dhcpOptionsMagic ++ rest) (minIpLen + udpLen + 16)).isSome :=
    readIp_isSome (by simp only [List.length_append] at hpre ⊢; simp only [dhcpBootpLen] at hpre; omega)
  obtain ⟨yourIp, hy⟩ := Option.isSome_iff_exists.mp hyip
  refine ⟨yourIp, ?_⟩
  rw [decode, hip', Option.bind_some, hy, Option.bind_some, List.length_append, hpre, ← hpre]
  exact decodeLoop_append _ rest _ _ 0 0 2 _

/-- `is_valid_dhcp` accepts a packet whose headers carry UDP to the client port, with a
`dhcp_packet`, the magic and any options. -/
theorem isValidDhcp_packet (hdr boot rest : List UInt8) (hhdr : hdr.length = minIpLen + udpLen)
    (hip : decodeIpLen hdr = some minIpLen) (hp : hdr[9]? = some IPPROTO_UDP)
    (hport : (hdr.drop (minIpLen + 2)).take 2 = be16 dhcpClientPort)
    (hboot : boot.length = dhcpBootpLen) :
    isValidDhcp (hdr ++ boot ++ dhcpOptionsMagic ++ rest) = true := by
  have h0 : 0 < hdr.length := by rw [hhdr]; decide
  have h9 : 9 < hdr.length := by rw [hhdr]; decide
  have h22 : minIpLen + 2 ≤ hdr.length := by rw [hhdr]; decide
  have hdrop : (hdr ++ boot ++ dhcpOptionsMagic ++ rest).drop (minIpLen + udpLen + dhcpBootpLen) =
      dhcpOptionsMagic ++ rest := by
    rw [List.append_assoc, List.append_assoc, ← List.append_assoc hdr,
      List.drop_left' (by rw [List.length_append, hhdr, hboot])]
  have hmagic : (dhcpOptionsMagic ++ rest).take 4 = dhcpOptionsMagic := List.take_left' rfl
  simp only [List.append_assoc] at hdrop
  simp only [isValidDhcp, List.append_assoc, decodeIpLen_append _ h0, hip, hdrop, hmagic,
    List.getElem?_append_left h9, hp, List.drop_append_of_le_length h22,
    List.take_append_of_le_length (show 2 ≤ (hdr.drop (minIpLen + 2)).length by
      rw [List.length_drop, hhdr]; decide), hport, beq_self_eq_true, Bool.and_true,
    decide_eq_true_eq, List.length_append, hhdr, hboot]
  simp only [minDhcpLen, dhcpOptionsMagic, List.length_cons, List.length_nil]
  omega

theorem readLe32_le32 (v : UInt32) (rest : List UInt8) : readLe32 (le32 v ++ rest) 0 = some v := by
  simp only [readLe32, le32, List.cons_append, List.getElem?_cons_zero, List.getElem?_cons_succ,
    Nat.zero_add]
  refine congrArg some ?_
  -- the four bytes are `v`'s base-256 digits
  apply UInt32.toNat_inj.mp
  simp only [UInt32.toNat_add, UInt32.toNat_mul, UInt8.toNat_toUInt32, UInt32.toNat_toUInt8,
    UInt32.toNat_shiftRight, Nat.shiftRight_eq_div_pow]
  have := v.toNat_lt
  simp only [UInt32.reduceToNat, Nat.reducePow, Nat.reduceMod]
  omega

/-- `get_xid()` of a client's packet is the `xid` it was composed with. -/
theorem getXid_composePacket (mac : MacAddr) (xid : UInt32) (options : List UInt8) :
    getXid (composePacket (bootRequest mac xid) options) minIpLen = some xid := by
  have hx : minIpLen + udpLen + 4 =
      (buildUdpIpHeaders ((bootRequest mac xid).length + options.length)).length +
        (([BOOTREQUEST, HTYPE_ETHERNET, ETHER_ADDR_LEN, 0] : List UInt8).length + 0) := rfl
  rw [getXid, composePacket, hx, List.append_assoc, readLe32_append, bootRequest]
  simp only [List.append_assoc]
  rw [readLe32_append, readLe32_le32]

/-- `decode` of what `compose_request` writes: the message type is `DHCP_MT_REQUEST` and the
server the one asked, and `get_xid()` gives the `xid`. -/
theorem decode_composeRequest (mac : MacAddr) (xid : UInt32) (yip sip : IpV4) (d : DhcpFields) :
    ∃ d', decode (composeRequest mac xid yip sip) d = some (true, d') ∧
      d'.messageType = DHCP_MT_REQUEST ∧ d'.dhcpServerIp = sip ∧
      getXid (composeRequest mac xid yip sip) minIpLen = some xid := by
  let rest : List UInt8 := [DHCP_OPTION_MESSAGE_TYPE, 1, DHCP_MT_REQUEST, DHCP_OPTION_DHCP_SERVER,
    4, sip.b0, sip.b1, sip.b2, sip.b3, DHCP_OPTION_REQUESTED_ADDRESS, 4, yip.b0, yip.b1, yip.b2,
    yip.b3, DHCP_OPTION_END]
  have hreq : composeRequest mac xid yip sip =
      buildUdpIpHeaders ((bootRequest mac xid).length + (dhcpOptionsMagic ++ rest).length) ++
        bootRequest mac xid ++ dhcpOptionsMagic ++ rest := by
    rw [composeRequest, composePacket]
    simp only [List.append_assoc]
    rfl
  obtain ⟨yourIp, h⟩ := decode_packet _ _ rest (buildUdpIpHeaders_length _) rfl
    (bootRequest_length mac xid) d
  refine ⟨{ d with dnsIps := [], yourIp, messageType := DHCP_MT_REQUEST, dhcpServerIp := sip },
    ?_, rfl, rfl, getXid_composePacket mac xid _⟩
  rw [hreq, h, show minIpLen + udpLen + dhcpBootpLen + 4 + rest.length = 284 from rfl]
  -- three passes: the message type, the server, the requested address; then the condition
  -- fails with the requested address's length counted twice
  rw [decodeLoop_pass (by decide) (by simp [rest]) (by decide) rfl rfl
      (parseOption_messageType ⟨Nat.le_refl _, by simp [rest]⟩ rfl),
    decodeLoop_pass (by decide) (by simp [rest]) (by decide) rfl rfl
      (parseOption_dhcpServer ⟨Nat.le_refl _, by simp [rest]⟩ rfl),
    decodeLoop_pass (by decide) (by simp [rest]) (by decide) rfl rfl
      (parseOption_default (by decide)),
    decodeLoop_stop _ fun hc => absurd hc.1 (by simp [rest])]

/-- `decode` of what `compose_discover` writes: the message type is `DHCP_MT_DISCOVER`, and
`get_xid()` gives the `xid`. -/
theorem decode_composeDiscover (mac : MacAddr) (xid : UInt32) (d : DhcpFields) :
    ∃ d', decode (composeDiscover mac xid) d = some (true, d') ∧
      d'.messageType = DHCP_MT_DISCOVER ∧ getXid (composeDiscover mac xid) minIpLen = some xid := by
  let rest : List UInt8 := [DHCP_OPTION_MESSAGE_TYPE, 1, DHCP_MT_DISCOVER,
    DHCP_OPTION_PARAMETER_REQUEST_LIST, 5, DHCP_OPTION_SUBNET_MASK, DHCP_OPTION_ROUTER,
    DHCP_OPTION_DOMAIN_NAME_SERVERS, DHCP_OPTION_INTERFACE_MTU, DHCP_OPTION_BROADCAST_ADDRESS,
    DHCP_OPTION_END]
  have hdis : composeDiscover mac xid =
      buildUdpIpHeaders ((bootRequest mac xid).length + (dhcpOptionsMagic ++ rest).length) ++
        bootRequest mac xid ++ dhcpOptionsMagic ++ rest := by
    rw [composeDiscover, composePacket]
    simp only [List.append_assoc]
    rfl
  obtain ⟨yourIp, h⟩ := decode_packet _ _ rest (buildUdpIpHeaders_length _) rfl
    (bootRequest_length mac xid) d
  refine ⟨{ d with dnsIps := [], yourIp, messageType := DHCP_MT_DISCOVER }, ?_, rfl,
    getXid_composePacket mac xid _⟩
  rw [hdis, h, show minIpLen + udpLen + dhcpBootpLen + 4 + rest.length = 279 from rfl]
  -- two passes, the message type and the parameter list, before the condition fails
  rw [decodeLoop_pass (by decide) (by decide) (by decide) rfl rfl
      (parseOption_messageType ⟨Nat.le_refl _, by decide⟩ rfl),
    decodeLoop_pass (by decide) (by decide) (by decide) rfl rfl
      (parseOption_default (by decide)),
    decodeLoop_stop _ fun hc => absurd hc.1 (by decide)]

end Packet

/-! ## A reply with two DNS servers -/

/-- A reply from the server port to the client port with `ip_hl` five, the `dhcp_packet` `boot`
and the options `options`; the header fields neither `is_valid_dhcp` nor `decode` reads are
zero. -/
def replyPacket (boot : List UInt8) (options : List DhcpOption) : List UInt8 :=
  ([0x45, 0, 0, 0, 0, 0, 0, 0, 64, IPPROTO_UDP, 0, 0, 0, 0, 0, 0, 255, 255, 255, 255] ++
      be16 dhcpServerPort ++ be16 dhcpClientPort ++ [0, 0, 0, 0]) ++
    boot ++ dhcpOptionsMagic ++ options.flatMap DhcpOption.encode

/-- An offer whose one `DHCP_OPTION_DOMAIN_NAME_SERVERS` lists two servers, then the message
type and `END`. -/
def twoDnsOptions (a b : IpV4) : List DhcpOption :=
  [.tlv DHCP_OPTION_DOMAIN_NAME_SERVERS (a.bytes ++ b.bytes),
    .tlv DHCP_OPTION_MESSAGE_TYPE [DHCP_MT_OFFER], .end]

/-- `is_valid_dhcp` accepts the reply, whatever its `dhcp_packet`, and `decode` returns `true`
with one DNS server and no message type, where RFC 2132 reads two servers and an offer: the
walk stops after the first option, whose eight bytes the loop condition counts twice. -/
theorem dhcp_decode_two_dns_servers (boot : List UInt8) (hboot : boot.length = dhcpBootpLen)
    (a b : IpV4) :
    isValidDhcp (replyPacket boot (twoDnsOptions a b)) = true ∧
      (∃ d', decode (replyPacket boot (twoDnsOptions a b)) DhcpFields.init = some (true, d') ∧
        d'.dnsIps = [a] ∧ d'.messageType = DHCP_MT_INVALID) ∧
      (rfcDecode (twoDnsOptions a b) DhcpFields.init).dnsIps = [a, b] ∧
      (rfcDecode (twoDnsOptions a b) DhcpFields.init).messageType = DHCP_MT_OFFER := by
  let hdr : List UInt8 :=
    [0x45, 0, 0, 0, 0, 0, 0, 0, 64, IPPROTO_UDP, 0, 0, 0, 0, 0, 0, 255, 255, 255, 255] ++
      be16 dhcpServerPort ++ be16 dhcpClientPort ++ [0, 0, 0, 0]
  let rest : List UInt8 := [DHCP_OPTION_DOMAIN_NAME_SERVERS, 8, a.b0, a.b1, a.b2, a.b3,
    b.b0, b.b1, b.b2, b.b3, DHCP_OPTION_MESSAGE_TYPE, 1, DHCP_MT_OFFER, DHCP_OPTION_END]
  have hreply : replyPacket boot (twoDnsOptions a b) = hdr ++ boot ++ dhcpOptionsMagic ++ rest :=
    rfl
  obtain ⟨yourIp, h⟩ := decode_packet hdr boot rest rfl rfl hboot DhcpFields.init
  refine ⟨hreply ▸ isValidDhcp_packet hdr boot rest rfl rfl rfl rfl hboot,
    ⟨{ DhcpFields.init with dnsIps := [a], yourIp }, ?_, rfl, rfl⟩, rfl, rfl⟩
  rw [hreply, h, show minIpLen + udpLen + dhcpBootpLen + 4 + rest.length = 282 from rfl]
  -- one pass reads the first server; the next condition adds the eight bytes once more
  rw [decodeLoop_pass (by decide) (by simp [rest]) (by decide) rfl rfl
      (parseOption_dns ⟨by decide, by simp [rest]⟩ rfl),
    decodeLoop_stop _ fun hc => absurd hc.1 (by simp [rest])]
  rfl

theorem dhcp_decode_two_dns_servers_zero_boot :
    (List.replicate 236 (0 : UInt8)).length = dhcpBootpLen ∧
      (isValidDhcp (replyPacket (List.replicate 236 0) (twoDnsOptions ⟨10, 0, 0, 1⟩ ⟨10, 0, 0, 2⟩))
          = true ∧
        (∃ d', decode (replyPacket (List.replicate 236 0) (twoDnsOptions ⟨10, 0, 0, 1⟩ ⟨10, 0, 0, 2⟩))
            DhcpFields.init = some (true, d') ∧
          d'.dnsIps = [⟨10, 0, 0, 1⟩] ∧ d'.messageType = DHCP_MT_INVALID) ∧
        (rfcDecode (twoDnsOptions ⟨10, 0, 0, 1⟩ ⟨10, 0, 0, 2⟩) DhcpFields.init).dnsIps =
          [⟨10, 0, 0, 1⟩, ⟨10, 0, 0, 2⟩] ∧
        (rfcDecode (twoDnsOptions ⟨10, 0, 0, 1⟩ ⟨10, 0, 0, 2⟩) DhcpFields.init).messageType =
          DHCP_MT_OFFER) :=
  ⟨rfl, dhcp_decode_two_dns_servers _ rfl _ _⟩

end Osv.Core.Dhcp
