import Nxweb.ServerProto.State

/-!
# State of the client side of a backend connection

`nxd_http_client_proto` (`nxd.h`) sends a request to a backend and receives its response. The
model keeps its state code and flags, the request and the response record, the bytes it buffers
itself, the readiness of its four stream ends, the four timers, and the messages it has published
and that the event loop has not delivered yet. The two halves of the backend's socket are records
of their own.

## Main definitions

* `HcpState`, `HcpEvent`: the enumerations of the source;
* `Hcp`: the protocol object;
* `Hcp.startRequest`, `Hcp.startReceivingResponse`, `Hcp.waitFor100Continue`,
  `Hcp.completeRequest`: the functions that move it from one phase to the next.
-/

namespace Nxweb

/-- `enum nxd_http_client_proto_state`. -/
inductive HcpState where
  | connecting
  | idle
  | sendingHeaders
  | waitingFor100Continue
  | sendingBody
  | waitingForResponse
  | receivingHeaders
  | receivingBody
  deriving DecidableEq, Repr

/-- The messages on `events_pub`. An error has a negative code. -/
inductive HcpEvent where
  | connected
  | responseReceived
  | requestComplete
  | error (code : ℤ)
  deriving DecidableEq, Repr

/-- `NXE_RDHUP`. -/
def nxeRdhup : ℤ := -2

/-- `NXE_HUP`. -/
def nxeHup : ℤ := -3

/-- `NXE_RDCLOSED`. -/
def nxeRdclosed : ℤ := -5

/-- `NXD_HCP_KEEP_ALIVE_TIMEOUT`. -/
def hcpKeepAliveTimeout : ℤ := -27001

/-- `NXD_HCP_READ_TIMEOUT`. -/
def hcpReadTimeout : ℤ := -27002

/-- `NXD_HCP_WRITE_TIMEOUT`. -/
def hcpWriteTimeout : ℤ := -27003

/-- `NXD_HCP_BAD_RESPONSE`. -/
def hcpBadResponse : ℤ := -27004

/-- `NXD_HCP_RESPONSE_CHUNKED_ENCODING_ERROR`. -/
def hcpResponseChunkedEncodingError : ℤ := -27006

/-- `NXD_HCP_NO_100CONTINUE`. -/
def hcpNo100Continue : ℤ := -27007

/-- `NXD_HCP_100CONTINUE_TIMEOUT`. -/
def hcp100ContinueTimeout : ℤ := -27008

/-- `nxd_http_client_proto`. A timer is on while it is linked into its queue. The bytes between
`first_body_chunk` and `first_body_chunk_end` are `none` for the null pointer, since a chunk whose
bytes the decoder has all dropped is not null. -/
structure Hcp where
  state : HcpState := .connecting
  chunkedDoNotDecode : Bool := false
  reqBodySendingStarted : Bool := false
  responseBodyComplete : Bool := false
  requestComplete : Bool := false
  receiving100Continue : Bool := false
  /-- `0` stands for no message. -/
  queuedErrorMessage : ℤ := 0
  resp : HttpResponse := {}
  req : Option HttpRequest := none
  firstBodyChunk : Option (List UInt8) := none
  /-- The bytes of the header stream in `nxb`. -/
  readBuf : List UInt8 := []
  reqHeadersPtr : Option (List UInt8) := none
  dataInReady : Bool := false
  dataOutReady : Bool := true
  reqBodyInReady : Bool := false
  respBodyOutReady : Bool := false
  reqBodyInPaired : Bool := false
  respBodyOutPaired : Bool := false
  timerKeepAlive : Bool := false
  timerRead : Bool := false
  timerWrite : Bool := false
  timer100Continue : Bool := false
  eventsPub : List HcpEvent := []
  deriving DecidableEq, Repr

/-- `nxe_publish(&hcp->events_pub, ...)`: the message waits for the event loop. -/
def Hcp.publish (hcp : Hcp) (msg : HcpEvent) : Hcp :=
  { hcp with eventsPub := hcp.eventsPub ++ [msg] }

/-- `nxd_http_client_proto_init` and `nxd_http_client_proto_connect`. -/
def Hcp.connect : Hcp := { timerWrite := true }

/-- `nxd_http_client_proto_start_request` for a request with the given headers; `none` is a
failed assertion. The content of the request does not come from memory. -/
def Hcp.startRequest (hcp : Hcp) (req : HttpRequest) (headers : List UInt8) : Option Hcp :=
  let hcp := { hcp with req := some req, readBuf := [], reqHeadersPtr := some headers }
  let start (hcp : Hcp) : Hcp :=
    { hcp with
      reqBodySendingStarted := false
      receiving100Continue := false
      requestComplete := false
      responseBodyComplete := false
      queuedErrorMessage := 0
      dataOutReady := true }
  match hcp.state with
  | .connecting => some (start hcp)
  | .idle =>
    some (start { hcp with state := .sendingHeaders, timerKeepAlive := false, timerWrite := true })
  | _ => none

/-- `start_receiving_response`. -/
def Hcp.startReceivingResponse (hcp : Hcp) : Hcp :=
  { hcp with
    dataOutReady := false
    timerWrite := false
    timerRead := true
    dataInReady := true
    state := .waitingForResponse }

/-- `wait_for_100_continue`. -/
def Hcp.waitFor100Continue (hcp : Hcp) : Hcp :=
  { hcp with
    dataOutReady := false
    timerWrite := false
    timer100Continue := true
    dataInReady := true
    receiving100Continue := true
    state := .waitingForResponse }

/-- `request_complete`. An error that came before the response was complete follows now. -/
def Hcp.completeRequest (hcp : Hcp) : Hcp :=
  let hcp := hcp.publish .requestComplete
  let hcp :=
    if hcp.queuedErrorMessage ≠ 0 then hcp.publish (.error hcp.queuedErrorMessage) else hcp
  { hcp with
    dataInReady := false
    dataOutReady := false
    timerRead := false
    timerKeepAlive := true
    requestComplete := true
    state := .idle }

end Nxweb
