import Nxweb.Http.Message

/-!
# State of the server side of a client connection

`nxd_http_server_proto` (`nxd.h`) joins a socket, a request body consumer and a response body
producer. The model keeps its state code, the request and response records, the bytes it
buffers itself, the readiness of its four stream ends, the three timers, and the messages it
has published and that the event loop has not delivered yet. The socket on its input side is a
record of its own: which bytes the client sends, and how many have arrived when the socket is
read, is up to the environment.

## Main definitions

* `HspState`, `HspMessage`: the enumerations of the source;
* `Hsp`: the protocol object;
* `Socket`: the istream the request is read from;
* `WriteReply` and `NextOs`: the ostream the response is written to, and how it answers.
-/

namespace Nxweb

/-- `enum nxd_http_server_proto_state`. -/
inductive HspState where
  | waitingForRequest
  | receivingHeaders
  | receivingBody
  | handling
  | sendingHeaders
  | sendingBody
  deriving DecidableEq, Repr

/-- The messages that the modeled functions publish on `events_pub`. -/
inductive HspMessage where
  | requestChunkedEncodingError
  | requestReceived
  | requestBodyReceived
  | requestComplete
  deriving DecidableEq, Repr

/-- `nxd_http_server_proto`. A timer is on while it is linked into its queue. The bytes between
`first_body_chunk` and `first_body_chunk_end` are one list, empty for the null pointer: the
source never lets the two meet. -/
structure Hsp where
  state : HspState := .waitingForRequest
  req : HttpRequest := {}
  resp : Option HttpResponse := none
  firstBodyChunk : List UInt8 := []
  /-- The bytes of the header stream in `nxb`. -/
  readBuf : List UInt8 := []
  respHeadersPtr : Option (List UInt8) := none
  dataInReady : Bool := true
  dataOutReady : Bool := false
  reqBodyOutReady : Bool := false
  respBodyInReady : Bool := true
  respBodyInPaired : Bool := false
  reqBodyOutPaired : Bool := false
  timerKeepAlive : Bool := false
  timerRead : Bool := false
  timerWrite : Bool := false
  /-- Whether `nxe_set_timer` has been called on a timer that was on, which is an assertion of it. -/
  timerFault : Bool := false
  eventsPub : List HspMessage := []
  deriving DecidableEq, Repr

/-- `nxe_publish(&hsp->events_pub, ...)`: the message waits for the event loop. -/
def Hsp.publish (hsp : Hsp) (msg : HspMessage) : Hsp :=
  { hsp with eventsPub := hsp.eventsPub ++ [msg] }

/-- `nxe_set_timer` of the keep-alive timer. -/
@[simps]
def Hsp.setTimerKeepAlive (hsp : Hsp) : Hsp :=
  { hsp with timerFault := hsp.timerFault || hsp.timerKeepAlive, timerKeepAlive := true }

/-- `nxe_set_timer` of the read timer. -/
@[simps]
def Hsp.setTimerRead (hsp : Hsp) : Hsp :=
  { hsp with timerFault := hsp.timerFault || hsp.timerRead, timerRead := true }

/-- `nxe_set_timer` of the write timer. -/
@[simps]
def Hsp.setTimerWrite (hsp : Hsp) : Hsp :=
  { hsp with timerFault := hsp.timerFault || hsp.timerWrite, timerWrite := true }

/-- `request_complete`. -/
def Hsp.requestComplete (hsp : Hsp) : Hsp :=
  { hsp with
    dataOutReady := false
    timerWrite := false
    respBodyInPaired := false
    reqBodyOutPaired := false }.publish .requestComplete

/-- The receiving side of a client socket. `incoming` are the bytes that the client sends and
that have not been read. -/
structure Socket where
  ready : Bool := true
  incoming : List UInt8 := []
  deriving DecidableEq, Repr

/-- `sock_data_recv_read`, when `avail` of the incoming bytes have arrived. A short read, also an
empty or failed one, makes the socket unready. -/
def Socket.dataRecvRead (sock : Socket) (size avail : ℕ) : List UInt8 × Socket :=
  if 0 < size then
    let data := sock.incoming.take (min avail size)
    (data, {
      ready := sock.ready && data.length == size
      incoming := sock.incoming.drop (min avail size) })
  else ([], sock)

/-- A read that is skipped if the socket is not ready. -/
def Socket.readIfReady (sock : Socket) (size avail : ℕ) : List UInt8 × Socket :=
  if sock.ready then sock.dataRecvRead size avail else ([], sock)

/-- How an ostream answers one `write`: it takes at most `accept` of the bytes given to it
and is then ready for more or not. -/
structure WriteReply where
  accept : ℕ
  ready : Bool
  deriving DecidableEq, Repr

/-- An ostream as its writer sees it: whether it is ready, and the bytes it has taken. -/
structure NextOs where
  ready : Bool
  received : List UInt8
  deriving DecidableEq, Repr

/-- One `write` of `data`, and the number of bytes taken. -/
def NextOs.write (os : NextOs) (data : List UInt8) (reply : WriteReply) : ℕ × NextOs :=
  let n := min reply.accept data.length
  (n, { ready := reply.ready, received := os.received ++ data.take n })

end Nxweb
