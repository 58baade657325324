import Nxweb.ClientProto.Delivery
import Nxweb.Memory.PoolIntegrity
import Nxweb.Proxy.Pool

/-!
# Accounting of backend connections

Every object of `free_pool` that is in use should be a connection that somebody has or that waits
on the idle list, `conn_count` should be the number of those handed out, and the idle ones should
be done with their last response and be watched.

`HttpProxyPool.connect` takes an object from `free_pool` before it tries to open a connection, and
does not give it back when that fails. So the books are in order in all states of a run if and
only if no new connection has failed to open in it (`run_accounted_iff`). The invariant
`HttpProxyPool.Inv` says of every function of the pool what it leaves behind.
-/

namespace Nxweb

open Lib

/-! ### A response that is complete stays so -/

/-- A call neither forgets that the response body is complete nor completes the request before
that. -/
structure KeepsComplete (hcp hcp' : Hcp) : Prop where
  body : hcp.responseBodyComplete = true → hcp'.responseBodyComplete = true
  request : hcp'.requestComplete = true →
    hcp.requestComplete = true ∨ hcp'.responseBodyComplete = true

theorem KeepsComplete.of_eq {hcp hcp' : Hcp}
    (hbody : hcp'.responseBodyComplete = hcp.responseBodyComplete)
    (hreq : hcp'.requestComplete = hcp.requestComplete) : KeepsComplete hcp hcp' :=
  ⟨fun h => hbody.trans h, fun h => .inl (hreq.symm.trans h)⟩

/-- Once the request is complete, so is the body of its response. -/
def Hcp.CompleteInOrder (hcp : Hcp) : Prop :=
  hcp.requestComplete = true → hcp.responseBodyComplete = true

theorem KeepsComplete.inOrder {hcp hcp' : Hcp} (h : KeepsComplete hcp hcp')
    (hin : hcp.CompleteInOrder) : hcp'.CompleteInOrder := fun hreq =>
  (h.request hreq).elim (fun hold => h.body (hin hold)) id

theorem KeepsComplete.trans {hcp hcp' hcp'' : Hcp} (h : KeepsComplete hcp hcp')
    (h' : KeepsComplete hcp' hcp'') : KeepsComplete hcp hcp'' where
  body hbody := h'.body (h.body hbody)
  request hreq := by
    rcases h'.request hreq with hreq | hbody
    · exact (h.request hreq).imp_right h'.body
    · exact .inr hbody

section Connections

variable {env : ClientEnv} {hcp hcp' : Hcp}

theorem setFirstBodyChunk_keeps {rest : List UInt8} (h : hcp.setFirstBodyChunk rest = some hcp') :
    KeepsComplete hcp hcp' := by
  unfold Hcp.setFirstBodyChunk at h
  split_ifs at h
  · obtain rfl := Option.some.inj h
    exact .of_eq rfl rfl
  · obtain ⟨r, -, h⟩ := Option.bind_eq_some_iff.mp h
    dsimp only at h
    split_ifs at h
    all_goals
      obtain rfl := Option.some.inj h
      exact ⟨by simp [Hcp.publish], fun hreq => .inl hreq⟩
  · dsimp only at h
    split_ifs at h
    all_goals
      obtain rfl := Option.some.inj h
      exact ⟨by simp, fun hreq => .inl hreq⟩

theorem responseReceived_keeps {rest : List UInt8} (h : hcp.responseReceived rest = some hcp') :
    KeepsComplete hcp hcp' := by
  obtain ⟨hcp₁, hchunk, hret⟩ := Option.bind_eq_some_iff.mp h
  obtain rfl := Option.some.inj hret
  exact (setFirstBodyChunk_keeps hchunk).trans (.of_eq rfl rfl)

theorem headersReceived_keeps {resp : HttpResponse} {rest : List UInt8}
    (h : hcp.headersReceived resp rest = some hcp') : KeepsComplete hcp hcp' := by
  unfold Hcp.headersReceived at h
  dsimp only at h
  split_ifs at h
  · obtain rfl := Option.some.inj h
    exact .of_eq rfl rfl
  all_goals
    have hkeep := responseReceived_keeps h
    exact ⟨hkeep.body, hkeep.request⟩

theorem dataInReadHeaders_keeps {sock sock' : Socket} {room avail : ℕ}
    (hst : hcp.state = .waitingForResponse ∨ hcp.state = .receivingHeaders)
    (h : hcp.dataInReadHeaders env sock room avail = some (hcp', sock')) :
    KeepsComplete hcp hcp' := by
  obtain ⟨-, -, hreq, -, hbody⟩ := openHeaders_spec hst
  obtain ⟨-, hcases⟩ := hcp_dataInReadHeaders_cases h
  cases hcases with
  | pending => exact .of_eq hbody hreq
  | bad _ _ hmore _ hcomplete => exact .of_eq (hcomplete.trans hbody) (hmore.trans hreq)
  | received _ _ hrecv =>
    have hopen : KeepsComplete hcp { hcp.openHeaders with
        readBuf := hcp.openHeaders.readBuf ++ (sock.dataRecvRead room avail).1 } :=
      .of_eq hbody hreq
    exact hopen.trans (headersReceived_keeps hrecv)

theorem receiveBody_keeps {raw data : List UInt8} (h : hcp.receiveBody raw = some (data, hcp')) :
    KeepsComplete hcp hcp' := by
  obtain ⟨-, -, hreq⟩ := receiveBody_phase h
  refine ⟨fun hbody => ?_, fun hdone => .inl (hreq ▸ hdone)⟩
  unfold Hcp.receiveBody at h
  split_ifs at h
  · obtain ⟨r, -, h⟩ := Option.bind_eq_some_iff.mp h
    dsimp only at h
    split_ifs at h
    all_goals
      obtain ⟨-, rfl⟩ := Prod.mk.inj (Option.some.inj h)
      first | exact hbody | rfl
  · dsimp only at h
    split_ifs at h
    all_goals
      obtain ⟨-, rfl⟩ := Prod.mk.inj (Option.some.inj h)
      first | exact hbody | rfl

/-- The end of the body is signalled when the body is complete. -/
theorem endOfBody_keeps (hbody : hcp.responseBodyComplete = true) :
    KeepsComplete hcp hcp.endOfBody :=
  ⟨by simp, fun _ => .inr (by simpa using hbody)⟩

theorem readBodyFromSocket_keeps {sock : Socket} {data : List UInt8} {size avail : ℕ}
    {r : RespRead} (h : hcp.readBodyFromSocket sock data size avail = some r) :
    KeepsComplete hcp r.hcp := by
  unfold Hcp.readBodyFromSocket at h
  split_ifs at h
  · generalize sock.readIfReady size avail = rd at h
    obtain ⟨⟨data₂, hcp₁⟩, hrecv, h⟩ := Option.bind_eq_some_iff.mp h
    have hkeep : KeepsComplete hcp hcp₁ := by
      refine .trans ?_ (receiveBody_keeps hrecv)
      split_ifs <;> exact .of_eq rfl rfl
    dsimp only at h
    split_ifs at h with hbody
    · obtain rfl := Option.some.inj h
      exact hkeep.trans (endOfBody_keeps hbody)
    · obtain rfl := Option.some.inj h
      exact hkeep
  · obtain rfl := Option.some.inj h
    exact .of_eq rfl rfl

theorem respBodyOutRead_keeps {sock : Socket} {size avail : ℕ} {r : RespRead}
    (h : hcp.respBodyOutRead sock size avail = some r) : KeepsComplete hcp r.hcp := by
  unfold Hcp.respBodyOutRead at h
  split_ifs at h
  · obtain rfl := Option.some.inj h
    exact .of_eq rfl rfl
  · obtain rfl := Option.some.inj h
    exact .of_eq rfl rfl
  · split at h
    · dsimp only at h
      by_cases hbody : hcp.responseBodyComplete = true
      · rw [if_pos hbody] at h
        obtain rfl := Option.some.inj h
        exact ⟨by simp, fun _ => .inr (by simpa using hbody)⟩
      · rw [if_neg hbody] at h
        have hkeep := readBodyFromSocket_keeps h
        exact ⟨hkeep.body, hkeep.request⟩
    · exact readBodyFromSocket_keeps h

theorem sendRequest_keeps {os : NextOs} {reply : WriteReply} {r : Bool × Hcp × NextOs}
    (h : hcp.sendRequest os reply = some r) : KeepsComplete hcp r.2.1 := by
  suffices hsame : r.2.1.responseBodyComplete = hcp.responseBodyComplete ∧
      r.2.1.requestComplete = hcp.requestComplete from .of_eq hsame.1 hsame.2
  unfold Hcp.sendRequest at h
  dsimp only at h
  split_ifs at h
  all_goals first
    | (obtain rfl := Option.some.inj h; exact ⟨rfl, rfl⟩)
    | (obtain ⟨req, -, h⟩ := Option.bind_eq_some_iff.mp h
       split_ifs at h <;> obtain rfl := Option.some.inj h <;> exact ⟨rfl, rfl⟩)

theorem sendBody_keeps (hcp : Hcp) (prevReady : Bool) :
    KeepsComplete hcp (hcp.sendBody prevReady) := by
  unfold Hcp.sendBody
  dsimp only
  split_ifs <;> exact .of_eq rfl rfl

theorem reqBodyInWrite_keeps (hcp : Hcp) (os : NextOs) (data : List UInt8) (eof : Bool)
    (reply : WriteReply) : KeepsComplete hcp (hcp.reqBodyInWrite os data eof reply).2.1 := by
  unfold Hcp.reqBodyInWrite
  by_cases hstate : hcp.state ≠ .sendingBody
  · rw [if_pos hstate]
    exact .of_eq rfl rfl
  · rw [if_neg hstate]
    dsimp only
    split_ifs <;> exact .of_eq rfl rfl

theorem dataErrorOnMessage_keeps (hcp : Hcp) (code : ℤ) :
    KeepsComplete hcp (hcp.dataErrorOnMessage code) := by
  unfold Hcp.dataErrorOnMessage
  split_ifs
  · exact ⟨fun _ => rfl, fun _ => .inr rfl⟩
  · exact .of_eq rfl rfl
  · exact .of_eq rfl rfl

theorem onTimeout_keeps {timer : HcpTimer} (h : hcp.onTimeout timer = some hcp') :
    KeepsComplete hcp hcp' := by
  cases timer
  all_goals
    obtain ⟨-, ⟨⟩⟩ := Option.ite_none_right_eq_some.mp h
    exact .of_eq rfl rfl

/-- Whatever is called on a connection, the body of the response is complete before the request
is. -/
theorem call_keeps {c : HcpCall} (h : hcp.call env c = some hcp') : KeepsComplete hcp hcp' := by
  cases c with
  | dataInDoRead sock room avail nextReady =>
    obtain ⟨-, h⟩ := Option.ite_none_right_eq_some.mp h
    split at h
    · obtain ⟨⟨hcp₁, sock'⟩, hread, rfl⟩ := Option.map_eq_some_iff.mp h
      exact dataInReadHeaders_keeps (.inl ‹_›) hread
    · obtain ⟨⟨hcp₁, sock'⟩, hread, rfl⟩ := Option.map_eq_some_iff.mp h
      exact dataInReadHeaders_keeps (.inr ‹_›) hread
    · obtain rfl := Option.some.inj h
      unfold Hcp.passBody
      split_ifs <;> exact .of_eq rfl rfl
    · obtain rfl := Option.some.inj h
      exact .of_eq rfl rfl
  | respBodyOutRead sock size avail =>
    obtain ⟨-, h⟩ := Option.ite_none_right_eq_some.mp h
    obtain ⟨r, hread, rfl⟩ := Option.map_eq_some_iff.mp h
    exact respBodyOutRead_keeps hread
  | dataOutDoWrite os reply prevReady =>
    obtain ⟨-, h⟩ := Option.ite_none_right_eq_some.mp h
    obtain ⟨r, hsend, rfl⟩ := Option.map_eq_some_iff.mp h
    split_ifs
    · exact (sendRequest_keeps hsend).trans (sendBody_keeps _ _)
    · exact sendRequest_keeps hsend
  | reqBodyInWrite os data eof reply =>
    obtain ⟨-, h⟩ := Option.ite_none_right_eq_some.mp h
    obtain rfl := Option.some.inj h
    exact reqBodyInWrite_keeps _ _ _ _ _
  | dataError code =>
    obtain rfl := Option.some.inj h
    exact dataErrorOnMessage_keeps _ _
  | timeout timer => exact onTimeout_keeps h

/-! ### A connection that waits -/

/-- The response is complete, and no stream of the connection is ready or connected to a body. -/
structure Hcp.Resting (hcp : Hcp) : Prop where
  state_eq : hcp.state = .idle
  request : hcp.requestComplete = true
  body : hcp.responseBodyComplete = true
  dataIn : hcp.dataInReady = false
  dataOut : hcp.dataOutReady = false
  reqBodyIn : hcp.reqBodyInPaired = false
  respBodyOut : hcp.respBodyOutPaired = false

/-- Only errors and timeouts come to a connection that rests, and they leave it at rest. -/
theorem Hcp.Resting.call {c : HcpCall} (h : hcp.Resting) (hcall : hcp.call env c = some hcp') :
    hcp'.Resting := by
  cases c with
  | dataInDoRead sock room avail nextReady =>
    have hready := (Option.ite_none_right_eq_some.mp hcall).1
    simp [h.dataIn] at hready
  | respBodyOutRead sock size avail =>
    have hpaired := (Option.ite_none_right_eq_some.mp hcall).1
    simp [h.respBodyOut] at hpaired
  | dataOutDoWrite os reply prevReady =>
    have hready := (Option.ite_none_right_eq_some.mp hcall).1
    simp [h.dataOut] at hready
  | reqBodyInWrite os data eof reply =>
    have hpaired := (Option.ite_none_right_eq_some.mp hcall).1
    simp [h.reqBodyIn] at hpaired
  | dataError code =>
    obtain rfl := Option.some.inj hcall
    unfold Hcp.dataErrorOnMessage
    rw [if_neg (by simp [h.state_eq]), if_neg (by simp [h.request])]
    exact ⟨h.state_eq, h.request, h.body, h.dataIn, h.dataOut, h.reqBodyIn, h.respBodyOut⟩
  | timeout timer =>
    cases timer
    all_goals
      obtain ⟨-, ⟨⟩⟩ := Option.ite_none_right_eq_some.mp hcall
      exact ⟨h.state_eq, h.request, h.body, h.dataIn, h.dataOut, h.reqBodyIn, h.respBodyOut⟩

/-- A connection that comes back for reuse is put to rest. -/
theorem HttpProxy.rearm_resting {hpx hpx' : HttpProxy} {closed : Bool}
    (hin : hpx.hcp.CompleteInOrder) (hspent : ¬ hpx.Spent closed) (h : hpx.rearm = some hpx') :
    hpx'.hcp.Resting ∧ hpx'.subs = [] := by
  obtain ⟨-, ⟨⟩⟩ := Option.ite_none_right_eq_some.mp h
  simp only [HttpProxy.Spent, not_or, Bool.not_eq_false, not_not] at hspent
  obtain ⟨-, hreq, hstate, -⟩ := hspent
  exact ⟨⟨hstate, hreq, hin hreq, rfl, rfl, rfl, rfl⟩, rfl⟩

/-- Whatever a request does with its connection, the body of the response is complete before the
request is. -/
theorem HttpProxy.use_inOrder {hpx hpx' : HttpProxy} {u : HpxUse}
    (hin : hpx.hcp.CompleteInOrder) (h : hpx.use u = some hpx') : hpx'.hcp.CompleteInOrder := by
  cases u with
  | startRequest req headers =>
    obtain ⟨hcp, hstart, rfl⟩ := Option.map_eq_some_iff.mp h
    have hfresh : hcp.requestComplete = false := by
      unfold Hcp.startRequest at hstart
      dsimp only at hstart
      split at hstart <;> cases hstart <;> rfl
    exact fun hreq => absurd hreq (by simp [hfresh])
  | connectStreams reqBody respBody =>
    obtain rfl := Option.some.inj h
    exact hin
  | subscribe =>
    obtain rfl := Option.some.inj h
    exact hin
  | unsubscribe =>
    obtain ⟨-, ⟨⟩⟩ := Option.ite_none_right_eq_some.mp h
    exact hin

theorem HttpProxy.use_unwatched {hpx hpx' : HttpProxy} {u : HpxUse} (h : hpx.use u = some hpx')
    (hmem : .eventsSub ∈ hpx'.subs) : .eventsSub ∈ hpx.subs := by
  cases u with
  | startRequest req headers =>
    obtain ⟨hcp, -, rfl⟩ := Option.map_eq_some_iff.mp h
    exact hmem
  | connectStreams reqBody respBody =>
    obtain rfl := Option.some.inj h
    exact hmem
  | subscribe =>
    obtain rfl := Option.some.inj h
    simpa [HttpProxy.subscribe] using hmem
  | unsubscribe =>
    obtain ⟨-, ⟨⟩⟩ := Option.ite_none_right_eq_some.mp h
    exact List.mem_of_mem_erase hmem

end Connections

theorem HttpProxy.connect_eq_ite (hpx : HttpProxy) (answers : ConnectAnswers) :
    hpx.connect answers = if answers.Good then some { hpx with hcp := Hcp.connect } else none := by
  obtain ⟨socket, setup, err⟩ := answers
  cases socket <;> cases setup <;> rcases err with _ | _ | _ | _ | _ <;>
    simp [HttpProxy.connect, ConnectAnswers.Good]

namespace HttpProxyPool

/-! ### The books of a pool -/

/-- The number of objects of `free_pool` that are in use. -/
def inUse (pp : HttpProxyPool) : ℕ :=
  (pp.freePool.objects.filter pp.freePool.inUse).length

/-- The books are in order. -/
def Accounted (pp : HttpProxyPool) : Prop :=
  ∃ idle, pp.idle.Holds idle ∧
    (pp.inUse : ℤ) = pp.connCount + idle.length ∧
    pp.connCount = pp.handedOut.length ∧
    ∀ o ∈ idle, (pp.hpx o).hcp.state = .idle ∧ (pp.hpx o).hcp.requestComplete = true ∧
      (pp.hpx o).hcp.responseBodyComplete = true ∧ (pp.hpx o).subs.count .eventsSub = 1

/-- If an event needs a new connection, it can be opened. -/
def Connects (pp : HttpProxyPool) : HttpProxyPoolEvent → Prop
  | .connect _ answers => pp.idle.first = none → answers.Good
  | _ => True

/-- What is known of a pool whose books are in order; `c₀` is the initial chunk of `free_pool`, and
`l` is the idle list. -/
structure Inv (c₀ : NxpChunk) (pp : HttpProxyPool) (l : List ObjRef) : Prop where
  idle : pp.idle.Holds l
  pool : PoolRun.Inv c₀ { pool := pp.freePool, held := l ++ pp.handedOut }
  count : pp.connCount = pp.handedOut.length
  resting : ∀ o ∈ l, (pp.hpx o).hcp.Resting ∧ (pp.hpx o).subs = [.eventsSub]
  unwatched : ∀ o ∉ l, .eventsSub ∉ (pp.hpx o).subs
  unlinked : ∀ o ∈ pp.handedOut, pp.idle.prev o = none
  inOrder : ∀ o ∈ pp.handedOut, (pp.hpx o).hcp.CompleteInOrder

section Steps

variable {env : ClientEnv} {c₀ : NxpChunk} {pp pp' : HttpProxyPool} {l : List ObjRef} {o : ObjRef}

theorem Inv.accounted (h : pp.Inv c₀ l) : pp.Accounted := by
  refine ⟨l, h.idle, ?_, h.count, fun o ho => ?_⟩
  · have hlen := h.pool.length_filter_inUse
    rw [List.length_append] at hlen
    rw [inUse, hlen, h.count]
    push_cast
    ring
  · obtain ⟨hrest, hsubs⟩ := h.resting o ho
    exact ⟨hrest.state_eq, hrest.request, hrest.body, by simp [hsubs]⟩

/-- A connection that was handed out is not on the idle list. -/
theorem Inv.not_mem_idle (h : pp.Inv c₀ l) (ho : o ∈ pp.handedOut) : o ∉ l := fun hl =>
  List.disjoint_of_nodup_append h.pool.held_nodup hl ho

theorem Inv.isLinked_iff (h : pp.Inv c₀ l) (hheld : o ∈ l ∨ o ∈ pp.handedOut) :
    pp.IsLinked o ↔ o ∈ l := by
  refine ⟨fun hlink => ?_, h.idle.prev_isSome_or_first⟩
  rcases hheld with ho | ho
  · exact ho
  · rcases hlink with hprev | hfirst
    · simp [h.unlinked o ho] at hprev
    · exact h.idle.mem_of_first hfirst

theorem Inv.init {freePool : NxpPool} (h : PoolRun.Inv c₀ { pool := freePool, held := [] }) :
    (init freePool).Inv c₀ [] where
  idle := DList.holds_nil rfl rfl
  pool := h
  count := rfl
  resting := by simp
  unwatched := by simp [HttpProxyPool.init]
  unlinked := by simp [HttpProxyPool.init]
  inOrder := by simp [HttpProxyPool.init]

/-! ### Connecting -/

/-- The first idle connection is handed out. -/
theorem Inv.connect_idle {mem : Option ℕ} {answers : ConnectAnswers} (h : pp.Inv c₀ (o :: l)) :
    ∃ pp', pp.connect mem answers = some pp' ∧ pp'.Inv c₀ l := by
  obtain ⟨hrest, hsubs⟩ := h.resting o (by simp)
  have ho : o ∉ l := (List.nodup_cons.mp h.idle.nodup).1
  have hconn : pp.connect mem answers = some (({ pp with idle := pp.idle.unlink o }.setHpx o
      { pp.hpx o with subs := [] }).handOut o) := by
    simp [connect, h.idle.first_eq, HttpProxy.unsubscribe, hsubs]
  have hidle : pp.idle.Holds ([] ++ o :: l) := h.idle
  refine ⟨_, hconn, hidle.unlink, ?_, ?_, ?_, ?_, ?_, ?_⟩
  · exact h.pool.perm List.perm_middle.symm
  · simp [handOut, setHpx, h.count]
  · intro x hx
    have hxo : x ≠ o := fun hxo => ho (hxo ▸ hx)
    simpa [handOut, setHpx, hxo] using h.resting x (by simp [hx])
  · intro x hx
    by_cases hxo : x = o
    · subst hxo
      simp [handOut, setHpx]
    · simpa [handOut, setHpx, hxo] using h.unwatched x (by simp [hxo, hx])
  · intro x hx
    by_cases hxo : x = o
    · subst hxo
      exact DList.unlink_prev_self
    · have hx' : x ∈ pp.handedOut := (List.mem_cons.mp hx).resolve_left hxo
      have hsame := h.idle.unlink_sameAt (x := o) (by simp) (h.not_mem_idle hx')
      exact hsame.2.trans (h.unlinked x hx')
  · intro x hx
    by_cases hxo : x = o
    · subst hxo
      simp only [handOut, setHpx, Function.update_self]
      exact fun _ => hrest.body
    · have hx' : x ∈ pp.handedOut := (List.mem_cons.mp hx).resolve_left hxo
      simpa [handOut, setHpx, hxo] using h.inOrder x hx'

/-- A fresh object comes from `free_pool`, and is on no list. -/
theorem Inv.allocHpx {mem : Option ℕ} {pp₁ : HttpProxyPool} (h : pp.Inv c₀ l)
    (ha : PoolRun.Allowed { pool := pp.freePool, held := [] } (.alloc mem))
    (halloc : pp.allocHpx mem = some (o, pp₁)) :
    o ∉ l ++ pp.handedOut ∧ ∃ freePool,
      PoolRun.Inv c₀ { pool := freePool, held := o :: (l ++ pp.handedOut) } ∧
      pp₁ = { pp with
        freePool, idle := (pp.idle.setNext o none).setPrev o none }.setHpx o {} := by
  have ha' : PoolRun.Allowed { pool := pp.freePool, held := l ++ pp.handedOut } (.alloc mem) := by
    cases mem <;> exact ha
  obtain ⟨freePool, obj, hpool, hnew, hinv⟩ := h.pool.alloc ha'
  dsimp only at hpool hnew hinv
  obtain ⟨r, hr, halloc⟩ := Option.bind_eq_some_iff.mp halloc
  obtain rfl := Option.some.inj (hpool.symm.trans hr)
  obtain ⟨x, rfl, hret⟩ := Option.bind_eq_some_iff.mp halloc
  obtain ⟨rfl, rfl⟩ := Prod.mk.inj (Option.some.inj hret)
  exact ⟨hnew x rfl, freePool, hinv, rfl⟩

/-- Without an idle connection a new one is opened. If that fails, its object stays in use, and the
books are not in order any more. -/
theorem Inv.connect_new {mem : Option ℕ} {answers : ConnectAnswers} (h : pp.Inv c₀ [])
    (ha : PoolRun.Allowed { pool := pp.freePool, held := [] } (.alloc mem))
    (hconn : pp.connect mem answers = some pp') :
    (answers.Good → pp'.Inv c₀ []) ∧ (¬ answers.Good → ¬ pp'.Accounted) := by
  have hfirst : pp.idle.first = none := h.idle.first_eq
  simp only [connect, hfirst] at hconn
  obtain ⟨⟨o, pp₁⟩, halloc, hconn⟩ := Option.bind_eq_some_iff.mp hconn
  obtain ⟨hnew, freePool, hpool, rfl⟩ := h.allocHpx ha halloc
  have hidle : ((pp.idle.setNext o none).setPrev o none).Holds [] :=
    DList.holds_nil hfirst h.idle.last_eq
  rw [HttpProxy.connect_eq_ite] at hconn
  constructor
  · intro hgood
    rw [if_pos hgood] at hconn
    obtain rfl := Option.some.inj hconn
    refine ⟨hidle, hpool, ?_, by simp, ?_, ?_, ?_⟩
    · simp [handOut, setHpx, h.count]
    · intro x hx
      by_cases hxo : x = o
      · subst hxo
        simp [handOut, setHpx]
      · simpa [handOut, setHpx, hxo] using h.unwatched x hx
    · intro x hx
      by_cases hxo : x = o
      · subst hxo
        simp [handOut, setHpx, DList.setPrev]
      · have hx' : x ∈ pp.handedOut := (List.mem_cons.mp hx).resolve_left hxo
        simpa [handOut, setHpx, DList.setPrev, DList.setNext, hxo] using h.unlinked x hx'
    · intro x hx
      by_cases hxo : x = o
      · subst hxo
        simp [handOut, setHpx, Hcp.CompleteInOrder, Hcp.connect]
      · have hx' : x ∈ pp.handedOut := (List.mem_cons.mp hx).resolve_left hxo
        simpa [handOut, setHpx, hxo] using h.inOrder x hx'
  · rintro hbad ⟨idle, hholds, hcount, -⟩
    rw [if_neg hbad] at hconn
    obtain rfl := Option.some.inj hconn
    obtain rfl := hidle.unique hholds
    have hlen := hpool.length_filter_inUse
    simp only [setHpx, inUse, h.count] at hcount
    simp only [List.nil_append, List.length_cons] at hlen
    rw [hlen] at hcount
    simp at hcount

/-! ### Returning -/

/-- The object of a connection that somebody has goes back to `free_pool`. -/
theorem Inv.discard_handedOut (h : pp.Inv c₀ l) (ho : o ∈ pp.handedOut)
    (hdisc : (pp.takeBack o).discard o = some pp') : pp'.Inv c₀ l := by
  have hol := h.not_mem_idle ho
  have hnot : ¬ (pp.takeBack o).IsLinked o := fun hlink =>
    hol ((h.isLinked_iff (.inr ho)).mp hlink)
  obtain ⟨freePool, hrel, hpool⟩ := h.pool.release (List.mem_append_right l ho)
  obtain ⟨r, hr, hret⟩ := Option.bind_eq_some_iff.mp hdisc
  rw [finalize, if_neg hnot] at hr hret
  obtain rfl := Option.some.inj (hrel.symm.trans hr)
  obtain rfl := Option.some.inj hret
  have hmem : ∀ {x}, x ∈ pp.handedOut.erase o → x ∈ pp.handedOut := List.mem_of_mem_erase
  have hne : ∀ {x}, x ∈ pp.handedOut.erase o → x ≠ o := by
    rintro x hx rfl
    have hnodup : pp.handedOut.Nodup := (List.nodup_append.mp h.pool.held_nodup).2.1
    exact hnodup.not_mem_erase hx
  refine ⟨h.idle, ?_, ?_, ?_, ?_, fun x hx => h.unlinked x (hmem hx), ?_⟩
  · rwa [List.erase_append_right _ hol] at hpool
  · have hlen := List.length_erase_of_mem ho
    have hpos := List.length_pos_of_mem ho
    simp only [setHpx, takeBack, hlen, h.count]
    omega
  · intro x hx
    have hxo : x ≠ o := fun hxo => hol (hxo ▸ hx)
    simpa [setHpx, takeBack, hxo] using h.resting x hx
  · intro x hx
    by_cases hxo : x = o
    · subst hxo
      simp [setHpx, HttpProxy.finalizeProto]
    · simpa [setHpx, takeBack, hxo] using h.unwatched x hx
  · intro x hx
    simpa [setHpx, takeBack, hne hx] using h.inOrder x (hmem hx)

/-- A connection that fails while it waits leaves the idle list and is freed. -/
theorem Inv.discard_idle (h : pp.Inv c₀ l) (ho : o ∈ l) (hdisc : pp.discard o = some pp') :
    pp'.Inv c₀ (l.erase o) := by
  have hlink : pp.IsLinked o := (h.isLinked_iff (.inl ho)).mpr ho
  obtain ⟨freePool, hrel, hpool⟩ := h.pool.release (List.mem_append_left _ ho)
  obtain ⟨r, hr, hret⟩ := Option.bind_eq_some_iff.mp hdisc
  rw [finalize, if_pos hlink] at hr hret
  obtain rfl := Option.some.inj (hrel.symm.trans hr)
  obtain rfl := Option.some.inj hret
  have hne : ∀ {x}, x ∈ l.erase o → x ≠ o := by
    rintro x hx rfl
    exact h.idle.nodup.not_mem_erase hx
  have hnew : ∀ {x}, x ∈ pp.handedOut → x ∉ l := h.not_mem_idle
  refine ⟨?_, ?_, h.count, ?_, ?_, ?_, ?_⟩
  · obtain ⟨as, bs, hoas, rfl, herase⟩ := List.exists_erase_eq ho
    rw [herase]
    exact h.idle.unlink
  · rwa [List.erase_append_left _ ho] at hpool
  · intro x hx
    simpa [setHpx, hne hx] using h.resting x (List.mem_of_mem_erase hx)
  · intro x hx
    by_cases hxo : x = o
    · subst hxo
      simp [setHpx, HttpProxy.finalizeProto]
    · have hxl : x ∉ l := fun hxl => hx ((List.mem_erase_of_ne hxo).mpr hxl)
      simpa [setHpx, hxo] using h.unwatched x hxl
  · intro x hx
    exact (h.idle.unlink_sameAt ho (hnew hx)).2.trans (h.unlinked x hx)
  · intro x hx
    have hxo : x ≠ o := fun hxo => hnew hx (hxo ▸ ho)
    simpa [setHpx, hxo] using h.inOrder x hx

/-- A connection that can be used again joins the idle list at its end. -/
theorem Inv.giveBack_idle {closed : Bool} (h : pp.Inv c₀ l) (ho : o ∈ pp.handedOut)
    (hspent : ¬ (pp.hpx o).Spent closed) (hret : pp.giveBack o closed = some pp') :
    pp'.Inv c₀ (l ++ [o]) := by
  have hol := h.not_mem_idle ho
  rw [giveBack, takeBack, if_neg hspent] at hret
  obtain ⟨hpx, hrearm, hret⟩ := Option.bind_eq_some_iff.mp hret
  obtain rfl := Option.some.inj hret
  obtain ⟨hrest, hsubs⟩ := HttpProxy.rearm_resting (h.inOrder o ho) hspent hrearm
  have hmem : ∀ {x}, x ∈ pp.handedOut.erase o → x ∈ pp.handedOut := List.mem_of_mem_erase
  have hne : ∀ {x}, x ∈ pp.handedOut.erase o → x ≠ o := by
    rintro x hx rfl
    have hnodup : pp.handedOut.Nodup := (List.nodup_append.mp h.pool.held_nodup).2.1
    exact hnodup.not_mem_erase hx
  refine ⟨h.idle.pushBack hol, ?_, ?_, ?_, ?_, ?_, ?_⟩
  · refine h.pool.perm ?_
    show (l ++ pp.handedOut).Perm (l ++ [o] ++ pp.handedOut.erase o)
    rw [List.append_assoc]
    exact (List.perm_cons_erase ho).append_left l
  · have hlen := List.length_erase_of_mem ho
    have hpos := List.length_pos_of_mem ho
    simp only [setHpx, hlen, h.count]
    omega
  · intro x hx
    by_cases hxo : x = o
    · subst hxo
      simpa [setHpx, HttpProxy.subscribe, hsubs] using hrest
    · have hxl : x ∈ l := by simpa [hxo] using hx
      simpa [setHpx, hxo] using h.resting x hxl
  · intro x hx
    obtain ⟨hxl, hxo⟩ : x ∉ l ∧ x ≠ o := by simpa using hx
    simpa [setHpx, hxo] using h.unwatched x hxl
  · intro x hx
    have hsame := h.idle.pushBack_sameAt (h.not_mem_idle (hmem hx)) (hne hx)
    exact hsame.2.trans (h.unlinked x (hmem hx))
  · intro x hx
    simpa [setHpx, hne hx] using h.inOrder x (hmem hx)

/-! ### The other events -/

/-- A change of one connection that its place allows. -/
theorem Inv.setHpx {hpx : HttpProxy} (h : pp.Inv c₀ l)
    (hrest : o ∈ l → hpx.hcp.Resting ∧ hpx.subs = [.eventsSub])
    (hwatch : o ∉ l → .eventsSub ∉ hpx.subs) (hin : o ∈ pp.handedOut → hpx.hcp.CompleteInOrder) :
    (pp.setHpx o hpx).Inv c₀ l := by
  refine ⟨h.idle, h.pool, h.count, ?_, ?_, h.unlinked, ?_⟩
  all_goals
    intro x hx
    by_cases hxo : x = o
  · subst hxo
    simpa [HttpProxyPool.setHpx] using hrest hx
  · simpa [HttpProxyPool.setHpx, hxo] using h.resting x hx
  · subst hxo
    simpa [HttpProxyPool.setHpx] using hwatch hx
  · simpa [HttpProxyPool.setHpx, hxo] using h.unwatched x hx
  · subst hxo
    simpa [HttpProxyPool.setHpx] using hin hx
  · simpa [HttpProxyPool.setHpx, hxo] using h.inOrder x hx

theorem Inv.use {u : HpxUse} (h : pp.Inv c₀ l) (ho : o ∈ pp.handedOut)
    (huse : pp.update o (HttpProxy.use · u) = some pp') : pp'.Inv c₀ l := by
  obtain ⟨hpx, hhpx, rfl⟩ := Option.map_eq_some_iff.mp huse
  have hol := h.not_mem_idle ho
  refine h.setHpx (fun hl => absurd hl hol) (fun _ => ?_)
    (fun _ => HttpProxy.use_inOrder (h.inOrder o ho) hhpx)
  exact fun hmem => h.unwatched o hol (HttpProxy.use_unwatched hhpx hmem)

theorem Inv.call {c : HcpCall} (h : pp.Inv c₀ l)
    (hcall : pp.update o (fun hpx => (hpx.hcp.call env c).map fun hcp => { hpx with hcp }) =
      some pp') : pp'.Inv c₀ l := by
  obtain ⟨hpx, hmap, rfl⟩ := Option.map_eq_some_iff.mp hcall
  obtain ⟨hcp, hhcp, rfl⟩ := Option.map_eq_some_iff.mp hmap
  refine h.setHpx (fun hl => ?_) (fun hl => h.unwatched o hl) fun hout => ?_
  · obtain ⟨hrest, hsubs⟩ := h.resting o hl
    exact ⟨hrest.call hhcp, hsubs⟩
  · exact (call_keeps hhcp).inOrder (h.inOrder o hout)

theorem Inv.gc (h : pp.Inv c₀ l) : pp.gcSubOnMessage.Inv c₀ l :=
  ⟨h.idle, h.pool.gc.1, h.count, h.resting, h.unwatched, h.unlinked, h.inOrder⟩

/-! ### All events -/

/-- After an event, the books are in order if and only if a new connection that was needed could be
opened. -/
theorem Inv.step {e : HttpProxyPoolEvent} (h : pp.Inv c₀ l) (hstep : pp.step env e = some pp') :
    (pp.Connects e → ∃ l', pp'.Inv c₀ l') ∧ (pp'.Accounted → pp.Connects e) := by
  obtain ⟨ha, hexec⟩ := Option.ite_none_right_eq_some.mp hstep
  -- only a connect has a condition
  have hfree : pp.Connects e → (∃ l', pp'.Inv c₀ l') →
      (pp.Connects e → ∃ l', pp'.Inv c₀ l') ∧ (pp'.Accounted → pp.Connects e) :=
    fun hc hinv => ⟨fun _ => hinv, fun _ => hc⟩
  cases e with
  | connect mem answers =>
    cases l with
    | nil =>
      obtain ⟨hgood, hbad⟩ := h.connect_new ha hexec
      have hfirst : pp.idle.first = none := h.idle.first_eq
      exact ⟨fun hc => ⟨_, hgood (hc hfirst)⟩, fun hacc _ => by_contra fun hno => hbad hno hacc⟩
    | cons o l =>
      obtain ⟨pp₁, hconn, hinv⟩ : ∃ pp', pp.connect mem answers = some pp' ∧ pp'.Inv c₀ l :=
        h.connect_idle
      obtain rfl := Option.some.inj (hconn.symm.trans hexec)
      have hfirst : pp.idle.first = some o := h.idle.first_eq
      exact hfree (fun hnone => absurd hnone (by simp [hfirst])) ⟨l, hinv⟩
  | use o u => exact hfree trivial ⟨l, h.use ha hexec⟩
  | giveBack o closed =>
    by_cases hspent : (pp.hpx o).Spent closed
    · have hdisc : pp.giveBack o closed = (pp.takeBack o).discard o := if_pos hspent
      exact hfree trivial ⟨l, h.discard_handedOut ha (hdisc.symm.trans hexec)⟩
    · exact hfree trivial ⟨l ++ [o], h.giveBack_idle ha hspent hexec⟩
  | call o c => exact hfree trivial ⟨l, h.call hexec⟩
  | message o data =>
    have hol : o ∈ l := by_contra fun hol => h.unwatched o hol ha
    by_cases hdata : data < 0
    · have hdisc : pp.eventsSubOnMessage o data = pp.discard o := if_pos hdata
      exact hfree trivial ⟨l.erase o, h.discard_idle hol (hdisc.symm.trans hexec)⟩
    · have hsame : pp.eventsSubOnMessage o data = some pp := if_neg hdata
      obtain rfl := Option.some.inj (hsame.symm.trans hexec)
      exact hfree trivial ⟨l, h⟩
  | gc =>
    obtain rfl := Option.some.inj hexec
    exact hfree trivial ⟨l, h.gc⟩

end Steps

/-- A new pool of connections is in order. In every run from there, the books are in order in all
states that are reached if and only if, whenever a connection was asked for and none was idle, a
new one could be opened. -/
theorem run_accounted_iff (env : ClientEnv) (size addr : ℕ) (memory : NxpPool)
    (hsize : 8 < size) :
    ∃ freePool, NxpPool.init size freeProxyPoolInitialSize addr memory = some freePool ∧
      (init freePool).Accounted ∧
      ∀ es, Along (step env) (fun _ _ pp' => pp'.Accounted) (init freePool) es ↔
        Along (step env) (fun pp e _ => pp.Connects e) (init freePool) es := by
  obtain ⟨freePool, hpool, hinv⟩ :=
    PoolRun.inv_init size freeProxyPoolInitialSize addr memory hsize (by decide)
  have hinit := Inv.init hinv
  refine ⟨freePool, hpool, hinit.accounted, fun es => ?_⟩
  let c₀ : NxpChunk := { addr, nitems := freeProxyPoolInitialSize, id := 1 }
  refine along_iff (I := fun pp => ∃ l, pp.Inv c₀ l) (fun pp e pp' hpp hstep => ?_) es ⟨_, hinit⟩
  obtain ⟨l, h⟩ := hpp
  obtain ⟨hkeep, honly⟩ := h.step hstep
  refine ⟨⟨honly, fun hc => ?_⟩, fun hacc => hkeep (honly hacc)⟩
  obtain ⟨l', hinv'⟩ := hkeep hc
  exact hinv'.accounted

/-- A backend whose responses are of no interest. -/
def mutedEnv : ClientEnv where
  parseHttpResponse _ := none

/-- A pool of objects of 2048 bytes. -/
theorem run_accounted_iff_muted :
    8 < 2048 ∧ ∃ freePool,
      NxpPool.init 2048 freeProxyPoolInitialSize 0 PoolRun.blankMemory = some freePool ∧
      (init freePool).Accounted ∧
      ∀ es, Along (step mutedEnv) (fun _ _ pp' => pp'.Accounted) (init freePool) es ↔
        Along (step mutedEnv) (fun pp e _ => pp.Connects e) (init freePool) es :=
  ⟨by decide, run_accounted_iff mutedEnv 2048 0 PoolRun.blankMemory (by decide)⟩

/-- The backend refuses the connection, with `ECONNREFUSED`. -/
def refused : ConnectAnswers where
  socket := true
  setupClientSocket := true
  connect := some (.other 111)

/-- The first connection of a new pool is refused: its object stays in use, while no connection is
handed out and none is idle. -/
theorem not_run_accounted :
    ∃ freePool,
      NxpPool.init 2048 freeProxyPoolInitialSize 0 PoolRun.blankMemory = some freePool ∧
      ¬ Along (step mutedEnv) (fun _ _ pp' => pp'.Accounted) (init freePool)
        [.connect none refused] := by
  obtain ⟨freePool, hpool, hinv⟩ :=
    PoolRun.inv_init 2048 freeProxyPoolInitialSize 0 PoolRun.blankMemory (by decide) (by decide)
  have hruns : (do
      let freePool ← NxpPool.init 2048 freeProxyPoolInitialSize 0 PoolRun.blankMemory
      step mutedEnv (init freePool) (.connect none refused)).isSome = true := by decide
  rw [hpool] at hruns
  obtain ⟨pp', hpp'⟩ := Option.isSome_iff_exists.mp hruns
  have hstep : step mutedEnv (init freePool) (.connect none refused) = some pp' := hpp'
  refine ⟨freePool, hpool, fun halong => ?_⟩
  have hgood := ((Inv.init hinv).step hstep).2 (halong pp' hstep).1
  exact absurd (hgood rfl) (by decide)

end HttpProxyPool

end Nxweb
