import PacketQuery.Frame.Header.Transport
import PacketQuery.Text.Utf8
/-!
DNS messages: the fixed header and the first question, whose name is a sequence of labels.
-/

namespace PacketQuery.Header

def dnsPort : Nat := 53

/-- The most labels that a name may have. -/
def maxLabels : Nat := 128

/-- Reads labels from the head of `data`. `name` is the text so far, `used` the bytes read and
`room` the labels that may still come. A zero byte or a pointer ends the name, and a pointer
counts two bytes. -/
def labels (name : String) (used : Nat) : Nat → Bytes → Except HeaderFault (String × Nat)
  | room, data =>
    match data with
    | [] => .error .nameEnds
    | b :: rest =>
      let length := b.toNat
      if length = 0 then .ok (name, used + 1)
      -- Only the first byte of a pointer is known to be there.
      else if 0xC0 ≤ length then .ok (name, used + 2)
      else if 63 < length then .error (.labelLength length)
      else if rest.length < length then .error .labelEnds
      else
        let label := Text.ofUtf8Lossy (rest.take length)
        let longer := if name.isEmpty then label else name ++ "." ++ label
        -- A label beyond the room is checked like any other before the name is given up.
        match room with
        | 0 => .error .tooManyLabels
        | room + 1 => labels longer (used + 1 + length) room (rest.drop length)

/-- The domain name at the head of `data` and the number of bytes that it takes. -/
def domainName (data : Bytes) : Except HeaderFault (String × Nat) :=
  labels "" 0 maxLabels data

/-- The fields of a DNS message of at least twelve bytes that precede its questions. -/
def dnsFixedFields (message : Bytes) : List (String × FieldValue) :=
  let flags := Bytes.word16 message 2
  [("id", .u16 (Bytes.word16 message 0)), ("qr", .flag (flags &&& 0x8000 != 0)),
    ("opcode", .u8 (UInt8.ofNat (flags.toNat >>> 11 % 16))),
    ("rcode", .u8 (UInt8.ofNat (flags.toNat % 16))), ("qdcount", .u16 (Bytes.word16 message 4)),
    ("ancount", .u16 (Bytes.word16 message 6))]

/-- The name and type of the first question; the type is left out where the message ends. -/
def dnsQuestion (question : Bytes) : Except HeaderFault (List (String × FieldValue)) :=
  match domainName question with
  | .error fault => .error fault
  | .ok (name, used) =>
    .ok (("qname", .text name) ::
      (if used + 2 ≤ question.length then [("qtype", .u16 (Bytes.word16 question used))] else []))

/-- A DNS message that starts at its fixed header. `data` is given back where that is cut. -/
def dnsMessage (message data : Bytes) : Reading :=
  if message.length < 12 then .failed .dnsHeader data
  else
    let fields := dnsFixedFields message
    if Bytes.word16 message 4 = 0 then .complete fields [] []
    else
      match dnsQuestion (message.drop 12) with
      | .error fault => .broken fields fault
      | .ok question => .complete (fields ++ question) [] []

/-- A DNS message; over TCP two bytes of length come before it. -/
def dns (data : Bytes) (context : Context) : Reading :=
  if context.hint? .transport = some IpProtocol.tcp then
    if data.length < 2 then .failed .dnsLength data else dnsMessage (data.drop 2) data
  else dnsMessage data data

end PacketQuery.Header
