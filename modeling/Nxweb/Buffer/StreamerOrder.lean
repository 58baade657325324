import Nxweb.Buffer.Streamer
import Nxweb.Lib.Modify

/-!
# The output of a streamer

What a streamer passes on is the concatenation of its nodes' contents, in the order in which the
nodes were added. The invariant is stated over `StreamerView`, which leaves out all readiness:

* `Cursor nodes k done n later`: the nodes `done` before the `k`-th one are finished, the nodes
  `later` behind it are untouched, and a node that is complete while it is current is the last.
* `StreamerView.Inv v added`: the nodes are those added, the cursor is where the streamer is, the
  downstream ostream has received what was taken from the sources, and each end of file was
  written with the rest of the last node.

A write of a source is one step of the view (`StreamerView.Inv.pass`), whether it completes the
node or not. `Streamer.Inv.run` carries the invariant over all runs.
-/

namespace Nxweb

open Lib

namespace NodeProgress

/-- The node has not been reached yet. -/
def Untouched (n : NodeProgress) : Prop := n.complete = false ∧ n.taken = 0

/-- The whole content of the node has been accepted, and the end of its file seen. -/
def Finished (n : NodeProgress) : Prop := n.complete = true ∧ n.taken = n.content.length

/-- What has been accepted of the content. -/
def accepted (n : NodeProgress) : List UInt8 := n.content.take n.taken

/-- What is left of the content. -/
def rest (n : NodeProgress) : List UInt8 := n.content.drop n.taken

/-- `m` more bytes are accepted, and the node is complete if `complete` is set. -/
def advance (m : ℕ) (complete : Bool) (n : NodeProgress) : NodeProgress :=
  { n with complete := n.complete || complete, taken := n.taken + m }

theorem Untouched.accepted_eq_nil {n : NodeProgress} (h : n.Untouched) : n.accepted = [] := by
  rw [accepted, h.2, List.take_zero]

theorem Finished.accepted_eq_content {n : NodeProgress} (h : n.Finished) :
    n.accepted = n.content := by
  rw [accepted, h.2, List.take_length]

theorem accepted_append_rest (n : NodeProgress) : n.accepted ++ n.rest = n.content :=
  List.take_append_drop _ _

theorem length_rest (n : NodeProgress) : n.rest.length = n.content.length - n.taken :=
  List.length_drop

@[simp]
theorem accepted_advance (m : ℕ) (complete : Bool) (n : NodeProgress) :
    (n.advance m complete).accepted = n.accepted ++ n.rest.take m :=
  List.take_add

end NodeProgress

/-- What has been accepted of the contents of nodes. -/
def acceptedBytes (nodes : List NodeProgress) : List UInt8 :=
  nodes.flatMap (·.accepted)

theorem acceptedBytes_of_untouched {nodes : List NodeProgress}
    (h : ∀ n ∈ nodes, n.Untouched) : acceptedBytes nodes = [] :=
  List.flatMap_eq_nil_iff.mpr fun n hn => (h n hn).accepted_eq_nil

theorem acceptedBytes_of_finished {nodes : List NodeProgress}
    (h : ∀ n ∈ nodes, n.Finished) : acceptedBytes nodes = nodes.flatMap (·.content) :=
  List.flatMap_congr fun n hn => (h n hn).accepted_eq_content

/-- The `k`-th node `n` is the current one, behind finished nodes and before untouched ones. -/
structure Cursor (nodes : List NodeProgress) (k : ℕ) (done : List NodeProgress) (n : NodeProgress)
    (later : List NodeProgress) : Prop where
  split : nodes = done ++ n :: later
  length : done.length = k
  finished : ∀ d ∈ done, d.Finished
  le : n.taken ≤ n.content.length
  complete : n.complete = true → n.taken = n.content.length ∧ later = []
  untouched : ∀ d ∈ later, d.Untouched

/-- The streamer is before its first node, or at one of them. -/
def Positioned (nodes : List NodeProgress) : Option ℕ → Prop
  | none => ∀ n ∈ nodes, n.Untouched
  | some k => ∃ done n later, Cursor nodes k done n later

namespace Cursor

variable {nodes done later : List NodeProgress} {n : NodeProgress} {k m : ℕ}

theorem getElem? (h : Cursor nodes k done n later) : nodes[k]? = some n := by
  rw [h.split, ← h.length, List.getElem?_append_right le_rfl, Nat.sub_self,
    List.getElem?_cons_zero]

theorem length_nodes (h : Cursor nodes k done n later) :
    nodes.length = k + later.length + 1 := by
  rw [h.split, List.length_append, List.length_cons, h.length, Nat.add_assoc]

/-- A change of the current node leaves the others alone. -/
theorem modify (h : Cursor nodes k done n later) (f : NodeProgress → NodeProgress) :
    nodes.modify k f = done ++ f n :: later := by
  rw [h.split, ← h.length, modify_append_cons]

theorem acceptedBytes_eq (h : Cursor nodes k done n later) :
    acceptedBytes nodes = done.flatMap (·.content) ++ n.accepted := by
  have hdone := acceptedBytes_of_finished h.finished
  have hlater := acceptedBytes_of_untouched h.untouched
  rw [acceptedBytes] at hdone hlater ⊢
  rw [h.split, List.flatMap_append, List.flatMap_cons, hdone, hlater, List.append_nil]

/-- What is accepted of the current node is added at the end. -/
theorem acceptedBytes_advance (h : Cursor nodes k done n later) (m : ℕ) (complete : Bool) :
    acceptedBytes (nodes.modify k (·.advance m complete)) =
      acceptedBytes nodes ++ n.rest.take m := by
  have hlater := acceptedBytes_of_untouched h.untouched
  rw [acceptedBytes] at hlater
  rw [h.modify, h.acceptedBytes_eq]
  have hdone := acceptedBytes_of_finished h.finished
  rw [acceptedBytes] at hdone ⊢
  rw [List.flatMap_append, List.flatMap_cons, hdone, hlater, List.append_nil,
    NodeProgress.accepted_advance, List.append_assoc]

/-- What has been accepted is a prefix of all contents. -/
theorem acceptedBytes_prefix (h : Cursor nodes k done n later) :
    acceptedBytes nodes <+: nodes.flatMap (·.content) := by
  refine ⟨n.rest ++ later.flatMap (·.content), ?_⟩
  rw [h.acceptedBytes_eq, h.split, List.flatMap_append, List.flatMap_cons,
    ← n.accepted_append_rest]
  simp only [List.append_assoc]

/-- If the current node is the last one, its rest is all that is missing. -/
theorem acceptedBytes_append_rest (h : Cursor nodes k done n later) (hlast : later = []) :
    acceptedBytes nodes ++ n.rest = nodes.flatMap (·.content) := by
  rw [h.acceptedBytes_eq, h.split, hlast, List.flatMap_append, List.flatMap_singleton,
    List.append_assoc, n.accepted_append_rest]

/-- The current node goes on. -/
theorem advance (h : Cursor nodes k done n later) (hm : m ≤ n.rest.length) {complete : Bool}
    (hcomplete : complete = true → m = n.rest.length ∧ later = []) :
    Cursor (nodes.modify k (·.advance m complete)) k done (n.advance m complete) later := by
  have hle := h.le
  rw [n.length_rest] at hm hcomplete
  refine ⟨h.modify _, h.length, h.finished, ?_, fun hc => ?_, h.untouched⟩
  · change n.taken + m ≤ n.content.length
    omega
  · change n.taken + m = n.content.length ∧ later = []
    rcases Bool.or_eq_true_iff.mp hc with hc | hc
    · obtain ⟨htaken, hlast⟩ := h.complete hc
      exact ⟨by omega, hlast⟩
    · obtain ⟨hall, hlast⟩ := hcomplete hc
      exact ⟨by omega, hlast⟩

/-- The current node is finished, and the next one becomes current. -/
theorem next {n' : NodeProgress} {later' : List NodeProgress}
    (h : Cursor nodes k done n later) (hlater : later = n' :: later') :
    Cursor (nodes.modify k (·.advance n.rest.length true)) (k + 1)
      (done ++ [n.advance n.rest.length true]) n' later' := by
  have huntouched := h.untouched
  rw [hlater] at huntouched
  obtain ⟨hcomplete, htaken⟩ := huntouched n' (List.mem_cons_self ..)
  refine ⟨?_, ?_, fun d hd => ?_, by omega, fun hc => ?_, fun d hd => ?_⟩
  · rw [h.modify, hlater, List.append_assoc, List.singleton_append]
  · rw [List.length_append, h.length, List.length_singleton]
  · rcases List.mem_append.mp hd with hd | hd
    · exact h.finished d hd
    · obtain rfl := List.mem_singleton.mp hd
      refine ⟨Bool.or_true _, ?_⟩
      change n.taken + n.rest.length = n.content.length
      have hle := h.le
      rw [n.length_rest]
      omega
  · rw [hcomplete] at hc
    contradiction
  · exact huntouched d (List.mem_cons_of_mem _ hd)

/-- A node is appended while the current one goes on. -/
theorem append (h : Cursor nodes k done n later) (hcomplete : n.complete = false)
    {n' : NodeProgress} (huntouched : n'.Untouched) :
    Cursor (nodes ++ [n']) k done n (later ++ [n']) := by
  refine ⟨?_, h.length, h.finished, h.le, fun hc => ?_, fun d hd => ?_⟩
  · rw [h.split, List.append_assoc, List.cons_append]
  · rw [hcomplete] at hc
    contradiction
  · rcases List.mem_append.mp hd with hd | hd
    · exact h.untouched d hd
    · obtain rfl := List.mem_singleton.mp hd
      exact huntouched

/-- A node is appended behind the last one, which is complete, and becomes current. -/
theorem append_next (h : Cursor nodes k done n later) (hcomplete : n.complete = true)
    {n' : NodeProgress} (huntouched : n'.Untouched) :
    Cursor (nodes ++ [n']) nodes.length (done ++ [n]) n' [] := by
  obtain ⟨htaken, hlast⟩ := h.complete hcomplete
  refine ⟨?_, ?_, fun d hd => ?_, ?_, fun hc => ?_, by simp⟩
  · rw [h.split, hlast]
  · rw [h.length_nodes, hlast, List.length_append, h.length, List.length_singleton,
      List.length_nil, Nat.add_zero]
  · rcases List.mem_append.mp hd with hd | hd
    · exact h.finished d hd
    · obtain rfl := List.mem_singleton.mp hd
      exact ⟨hcomplete, htaken⟩
  · rw [huntouched.2]
    exact Nat.zero_le _
  · rw [huntouched.1] at hc
    contradiction

/-- The mark of the last node does not matter. -/
theorem finalize (h : Cursor nodes k done n later) :
    ∃ n' later', Cursor (nodes.modify (nodes.length - 1) fun n => { n with final := true }) k done
      n' later' := by
  rcases List.eq_nil_or_concat later with hlast | ⟨later', l, hlast⟩
  · have hk : nodes.length - 1 = k := by rw [h.length_nodes, hlast]; rfl
    rw [hk]
    exact ⟨_, _, h.modify _, h.length, h.finished, h.le, h.complete, h.untouched⟩
  · rw [List.concat_eq_append] at hlast
    have hsplit : nodes = (done ++ n :: later') ++ l :: [] := by rw [h.split, hlast]; simp
    have hk : nodes.length - 1 = (done ++ n :: later').length := by rw [hsplit]; simp
    have huntouched := h.untouched
    rw [hlast] at huntouched
    refine ⟨n, later' ++ [{ l with final := true }], ?_, h.length, h.finished, h.le,
      fun hc => ?_, fun d hd => ?_⟩
    · rw [hk, hsplit, modify_append_cons]
      simp
    · have := (h.complete hc).2
      rw [hlast] at this
      simp at this
    · rcases List.mem_append.mp hd with hd | hd
      · exact huntouched d (List.mem_append_left _ hd)
      · obtain rfl := List.mem_singleton.mp hd
        exact huntouched l (List.mem_append_right _ (List.mem_singleton_self l))

/-- The first of untouched nodes becomes current. -/
theorem first (h : ∀ d ∈ n :: later, d.Untouched) : Cursor (n :: later) 0 [] n later := by
  obtain ⟨hcomplete, htaken⟩ := h n (List.mem_cons_self ..)
  refine ⟨rfl, rfl, by simp, by omega, fun hc => ?_, fun d hd => h d (List.mem_cons_of_mem _ hd)⟩
  rw [hcomplete] at hc
  contradiction

end Cursor

/-- What the order of the output depends on. -/
structure StreamerView where
  nodes : List NodeProgress
  current : Option ℕ
  running : Bool
  forceEof : Bool
  closed : Bool
  received : List UInt8
  writes : List DownstreamWrite

namespace StreamerView

/-- All contents, in the order of the nodes. -/
def contents (v : StreamerView) : List (List UInt8) := v.nodes.map (·.content)

/-- An end of file is written with the last bytes of the last node of a closed streamer, when all
that is before them has been accepted. -/
def Ends (v : StreamerView) (w : DownstreamWrite) : Prop :=
  v.closed = true ∧ w.before ++ w.offered = v.contents.flatten ∧
    w.offered <:+ v.contents.getLast?.getD []

/-- The invariant, for a streamer to which nodes with the contents `added` were added. -/
structure Inv (v : StreamerView) (added : List (List UInt8)) : Prop where
  contents : v.contents = added
  positioned : Positioned v.nodes v.current
  received : v.received = acceptedBytes v.nodes
  idle : v.running = true → v.current = none → v.nodes = []
  running : v.current ≠ none → v.running = true
  final : ∀ k n, v.nodes[k]? = some n → n.final = true → v.closed = true ∧ k + 1 = v.nodes.length
  forceEof : v.forceEof = true → v.closed = true ∧ (v.current = none → v.nodes = [])
  ends : ∀ w ∈ v.writes, w.eof = true → v.Ends w

variable {v v' : StreamerView} {added : List (List UInt8)}

/-- Bytes go downstream. -/
def offer (v : StreamerView) (bytes : List UInt8) (writes : List DownstreamWrite) : StreamerView :=
  { v with received := v.received ++ bytes, writes := v.writes ++ writes }

/-- A node goes on. -/
def advance (v : StreamerView) (k m : ℕ) (complete : Bool) : StreamerView :=
  { v with nodes := v.nodes.modify k (·.advance m complete) }

/-- A node becomes current. -/
def goTo (v : StreamerView) (k : ℕ) : StreamerView := { v with current := some k }

/-- Bytes go downstream from the `k`-th node, which is complete if `complete` is set. The `next`-th
node is current afterwards. -/
def pass (v : StreamerView) (k : ℕ) (bytes : List UInt8) (complete : Bool) (next : ℕ)
    (writes : List DownstreamWrite) : StreamerView :=
  ((v.offer bytes writes).goTo next).advance k bytes.length complete

theorem advance_zero (v : StreamerView) (k : ℕ) : v.advance k 0 false = v := by
  have hadvance : (fun n : NodeProgress => n.advance 0 false) = id := by
    funext n
    simp [NodeProgress.advance]
  rw [advance, hadvance, List.modify_id]

theorem advance_advance (v : StreamerView) (k m : ℕ) :
    (v.advance k 0 true).advance k m false = v.advance k m true := by
  have hadvance : ∀ n : NodeProgress,
      (n.advance 0 true).advance m false = n.advance m true := fun n => by
    simp [NodeProgress.advance]
  simp only [advance, List.modify_modify_eq, Function.comp_def, hadvance]

/-- A node is appended; `current` is the current node afterwards. -/
def append (v : StreamerView) (content : List UInt8) (current : Option ℕ) : StreamerView :=
  { v with nodes := v.nodes ++ [{ content := content }], current := current }

/-- The streamer is started at its first node, if there is one. -/
def start (v : StreamerView) : StreamerView :=
  { v with running := true, current := if v.nodes = [] then v.current else some 0 }

/-- The streamer is closed; its last node is now final. -/
def close (v : StreamerView) (forceEof : Bool) : StreamerView :=
  { v with
    nodes := v.nodes.modify (v.nodes.length - 1) fun n => { n with final := true }
    forceEof := forceEof
    closed := true }

/-- An end of file is written without a node. -/
def writeEof (v : StreamerView) : StreamerView :=
  { v with writes := v.writes ++ [⟨v.received, [], true⟩] }

theorem contents_modify (v : StreamerView) (k : ℕ) {f : NodeProgress → NodeProgress}
    (hf : ∀ n, (f n).content = n.content) :
    { v with nodes := v.nodes.modify k f }.contents = v.contents :=
  map_modify_of_eq hf v.nodes k

theorem contents_pass (v : StreamerView) (k : ℕ) (bytes : List UInt8) (complete : Bool)
    (next : ℕ) (writes : List DownstreamWrite) :
    (v.pass k bytes complete next writes).contents = v.contents :=
  v.contents_modify k fun _ => rfl

/-- Bytes of the current node go downstream. If this completes the node, the next one becomes
current, unless there is none. An end of file is written with the rest of a final node only. -/
theorem Inv.pass (hinv : v.Inv added) {k m : ℕ} {done later : List NodeProgress}
    {n : NodeProgress} (hcur : v.current = some k) (h : Cursor v.nodes k done n later)
    {bytes : List UInt8} (hbytes : bytes = n.rest.take m) (hm : m ≤ n.rest.length)
    {complete : Bool} (hcomplete : complete = true → m = n.rest.length) {next : ℕ}
    (hnext : if complete = true ∧ later ≠ [] then next = k + 1 else next = k)
    {writes : List DownstreamWrite}
    (hwrites : ∀ w ∈ writes, w.eof = true →
      n.final = true ∧ w.before = v.received ∧ w.offered = n.rest) :
    (v.pass k bytes complete next writes).Inv added := by
  have hlength : bytes.length = m := by
    rw [hbytes, List.length_take, Nat.min_eq_left hm]
  refine ⟨?_, ?_, ?_, fun _ hnone => ?_, fun _ => hinv.running ?_, fun i n' hn' hfinal => ?_,
    fun hforce => ?_, fun w hw heof => ?_⟩
  · rw [contents_pass, hinv.contents]
  · simp only [StreamerView.pass, StreamerView.advance, hlength]
    split at hnext
    · obtain ⟨rfl, hlater⟩ := ‹complete = true ∧ later ≠ []›
      obtain ⟨n', later', hcons⟩ := List.exists_cons_of_ne_nil hlater
      rw [hcomplete rfl, hnext]
      exact ⟨_, _, _, h.next hcons⟩
    · rename_i hgoes
      rw [hnext]
      exact ⟨_, _, _, h.advance hm fun hc => ⟨hcomplete hc, by simpa [hc] using hgoes⟩⟩
  · change v.received ++ bytes = acceptedBytes (v.nodes.modify k _)
    rw [hlength, h.acceptedBytes_advance, hinv.received, hbytes]
  · exact absurd hnone (Option.some_ne_none _)
  · rw [hcur]
    exact Option.some_ne_none _
  · simp only [StreamerView.pass, StreamerView.advance, List.getElem?_modify,
      List.length_modify] at hn' ⊢
    obtain ⟨n₀, hn₀, rfl⟩ := Option.map_eq_some_iff.mp hn'
    refine hinv.final i n₀ hn₀ ?_
    split at hfinal
    · exact hfinal
    · exact hfinal
  · exact ⟨(hinv.forceEof hforce).1, fun hnone => absurd hnone (Option.some_ne_none _)⟩
  · rw [Ends, contents_pass]
    rcases List.mem_append.mp hw with hw | hw
    · exact hinv.ends w hw heof
    · obtain ⟨hfinal, hbefore, hoffered⟩ := hwrites w hw heof
      obtain ⟨hclosed, hlast⟩ := hinv.final k n h.getElem? hfinal
      have hnil : later = [] := by
        rw [h.length_nodes] at hlast
        exact List.length_eq_zero_iff.mp (by omega)
      refine ⟨hclosed, ?_, ?_⟩
      · rw [hbefore, hoffered, hinv.received, h.acceptedBytes_append_rest hnil,
          StreamerView.contents, List.flatMap_def]
      · rw [hoffered, StreamerView.contents, h.split, hnil, List.map_append, List.map_singleton,
          List.getLast?_concat]
        exact List.drop_suffix _ _

/-- What has been received is a prefix of all contents. -/
theorem Inv.received_prefix (hinv : v.Inv added) : v.received <+: added.flatten := by
  rw [hinv.received, ← hinv.contents, StreamerView.contents, ← List.flatMap_def]
  have hpos := hinv.positioned
  cases hcur : v.current with
  | none =>
    rw [hcur] at hpos
    rw [acceptedBytes_of_untouched hpos]
    exact List.nil_prefix
  | some k =>
    rw [hcur] at hpos
    obtain ⟨done, n, later, h⟩ := hpos
    exact h.acceptedBytes_prefix

/-- While the streamer is open, no node is final. -/
theorem Inv.not_final (hinv : v.Inv added) (hclosed : v.closed = false) {n : NodeProgress}
    (hn : n ∈ v.nodes) : n.final = false := by
  obtain ⟨k, hk⟩ := List.mem_iff_getElem?.mp hn
  by_contra hfinal
  have := (hinv.final k n hk (Bool.of_not_eq_false hfinal)).1
  rw [hclosed] at this
  contradiction

/-- A node is appended to an open streamer. -/
theorem Inv.append (hinv : v.Inv added) (hclosed : v.closed = false) (content : List UInt8)
    {current : Option ℕ}
    (hpos : Positioned (v.nodes ++ [{ content := content }]) current)
    (hstarted : v.running = true ↔ current ≠ none) :
    (v.append content current).Inv (added ++ [content]) := by
  refine ⟨?_, hpos, ?_, fun hrun hnone => absurd hnone (hstarted.mp hrun), hstarted.mpr,
    fun k n hn hfinal => ?_, fun hforce => ?_, fun w hw heof => ?_⟩
  · rw [← hinv.contents, StreamerView.contents, StreamerView.contents, StreamerView.append,
      List.map_append, List.map_singleton]
  · have hnew : acceptedBytes [({ content := content } : NodeProgress)] = [] :=
      acceptedBytes_of_untouched fun n hn => by
        obtain rfl := List.mem_singleton.mp hn
        exact ⟨rfl, rfl⟩
    change v.received = acceptedBytes (v.nodes ++ _)
    rw [acceptedBytes] at hnew ⊢
    rw [List.flatMap_append, hnew, List.append_nil]
    exact hinv.received
  · rcases List.mem_append.mp (List.mem_of_getElem? hn) with hmem | hmem
    · rw [hinv.not_final hclosed hmem] at hfinal
      contradiction
    · obtain rfl := List.mem_singleton.mp hmem
      contradiction
  · have := (hinv.forceEof hforce).1
    rw [hclosed] at this
    contradiction
  · have := (hinv.ends w hw heof).1
    rw [hclosed] at this
    contradiction

/-- The streamer is started, unless its first node is complete. -/
theorem Inv.start (hinv : v.Inv added)
    (hcomplete : ∀ n, v.nodes[0]? = some n → n.complete = false) : v.start.Inv added := by
  cases hnodes : v.nodes with
  | nil =>
    have hstart : v.start = { v with running := true } := by simp [StreamerView.start, hnodes]
    rw [hstart]
    exact { hinv with
      idle := fun _ _ => hnodes
      running := fun _ => rfl }
  | cons n later =>
    have hstart : v.start = { v with running := true, current := some 0 } := by
      simp [StreamerView.start, hnodes]
    rw [hstart]
    refine { hinv with
      positioned := ?_
      idle := fun _ hnone => absurd hnone (Option.some_ne_none _)
      running := fun _ => rfl
      forceEof := fun hforce =>
        ⟨(hinv.forceEof hforce).1, fun hnone => absurd hnone (Option.some_ne_none _)⟩ }
    have hpos := hinv.positioned
    cases hcur : v.current with
    | none =>
      rw [hcur, hnodes] at hpos
      exact ⟨[], n, later, hnodes ▸ Cursor.first hpos⟩
    | some k =>
      rw [hcur] at hpos
      obtain ⟨done, n', later', h⟩ := hpos
      -- the first node is not complete, so the streamer has not gone beyond it
      cases done with
      | nil =>
        obtain rfl := h.length
        exact ⟨[], n', later', h⟩
      | cons d done =>
        have hd := (h.finished d (List.mem_cons_self ..)).1
        have hfirst : v.nodes[0]? = some d := by rw [h.split]; rfl
        rw [hcomplete d hfirst] at hd
        contradiction

/-- The streamer is closed. An end of file is only forced if there is no node, or if the last one
is complete. -/
theorem Inv.close (hinv : v.Inv added) {forceEof : Bool}
    (hforce : forceEof = true → v.forceEof = true ∨
      ∀ n, v.nodes.getLast? = some n → n.complete = true) :
    (v.close forceEof).Inv added := by
  have hcontents : (v.close forceEof).contents = v.contents := v.contents_modify _ fun _ => rfl
  have hnil : (v.close forceEof).nodes = [] ↔ v.nodes = [] := List.modify_eq_nil_iff
  refine ⟨hcontents.trans hinv.contents, ?_, ?_, fun hrun hcur => hnil.mpr (hinv.idle hrun hcur),
    hinv.running, fun k n hn hfinal => ⟨rfl, ?_⟩, fun hforced => ⟨rfl, fun hcur => hnil.mpr ?_⟩,
    fun w hw heof => ?_⟩
  · have hpos := hinv.positioned
    change Positioned _ v.current
    cases hcur : v.current with
    | none =>
      rw [hcur] at hpos
      intro n hn
      obtain ⟨i, hi⟩ := List.mem_iff_getElem?.mp hn
      rw [StreamerView.close, List.getElem?_modify] at hi
      obtain ⟨n₀, hn₀, rfl⟩ := Option.map_eq_some_iff.mp hi
      have := hpos n₀ (List.mem_of_getElem? hn₀)
      split
      · exact this
      · exact this
    | some k =>
      rw [hcur] at hpos
      obtain ⟨done, n, later, h⟩ := hpos
      exact ⟨done, h.finalize⟩
  · change v.received = acceptedBytes (v.nodes.modify _ _)
    rw [hinv.received, acceptedBytes, acceptedBytes, List.flatMap_def, List.flatMap_def]
    exact congrArg List.flatten (map_modify_of_eq (f := fun n => { n with final := true })
      (g := NodeProgress.accepted) (fun _ => rfl) v.nodes _).symm
  · -- before, final nodes were the last, too
    simp only [StreamerView.close, List.length_modify, List.getElem?_modify] at hn ⊢
    obtain ⟨n₀, hn₀, rfl⟩ := Option.map_eq_some_iff.mp hn
    obtain ⟨hlt, -⟩ := List.getElem?_eq_some_iff.mp hn₀
    by_cases hk : v.nodes.length - 1 = k
    · omega
    · rw [if_neg hk] at hfinal
      exact (hinv.final k n₀ hn₀ hfinal).2
  · rcases hforce hforced with hold | hcomplete
    · exact (hinv.forceEof hold).2 hcur
    · by_contra hne
      have hpos := hinv.positioned
      rw [show v.current = none from hcur] at hpos
      have hlast := List.getLast?_eq_some_getLast hne
      have := (hpos _ (List.getLast_mem hne)).1
      rw [hcomplete _ hlast] at this
      contradiction
  · have := hinv.ends w hw heof
    rw [Ends, hcontents]
    exact ⟨rfl, this.2⟩

/-- An end of file is forced at a streamer without nodes. -/
theorem Inv.writeEof (hinv : v.Inv added) (hcur : v.current = none)
    (hforce : v.forceEof = true) : v.writeEof.Inv added := by
  refine { hinv with ends := fun w hw heof => ?_ }
  rcases List.mem_append.mp hw with hw | hw
  · exact hinv.ends w hw heof
  · obtain rfl := List.mem_singleton.mp hw
    obtain ⟨hclosed, hempty⟩ := hinv.forceEof hforce
    have hcontents : v.contents = [] := by rw [StreamerView.contents, hempty hcur, List.map_nil]
    refine ⟨hclosed, ?_, List.nil_suffix⟩
    change v.received ++ [] = v.contents.flatten
    rw [List.append_nil, hinv.received, hempty hcur, hcontents]
    rfl

end StreamerView

namespace Streamer

/-- What the order of the output depends on. -/
def view (strm : Streamer) : StreamerView where
  nodes := strm.nodes.map (·.toNodeProgress)
  current := strm.current
  running := strm.running
  forceEof := strm.forceEof
  closed := strm.closed
  received := strm.nextOs.received
  writes := strm.writes

variable {strm strm' : Streamer} {added : List (List UInt8)}

/-- The view of a change to a node. -/
theorem view_modifyNode {f : StreamerNode → StreamerNode} {e : NodeProgress → NodeProgress}
    (hf : ∀ n, (f n).toNodeProgress = e n.toNodeProgress) (strm : Streamer) (k : ℕ) :
    (strm.modifyNode k f).view =
      { strm.view with nodes := strm.view.nodes.modify k e } := by
  simp only [view, modifyNode, map_modify hf]

/-- Connections and readiness are not in the view. -/
theorem view_modifyNode_of_eq {f : StreamerNode → StreamerNode}
    (hf : ∀ n, (f n).toNodeProgress = n.toNodeProgress) (strm : Streamer) (k : ℕ) :
    (strm.modifyNode k f).view = strm.view := by
  simp only [view, modifyNode, map_modify_of_eq hf]

@[simp]
theorem view_setNodeReady (strm : Streamer) (k : ℕ) (ready : Bool) :
    (strm.setNodeReady k ready).view = strm.view :=
  view_modifyNode_of_eq (f := fun snode => { snode with ready := ready }) (fun _ => rfl) strm k

theorem view_getElem? (strm : Streamer) (k : ℕ) :
    strm.view.nodes[k]? = strm.nodes[k]?.map (·.toNodeProgress) :=
  List.getElem?_map ..

theorem length_nodes (hinv : strm.view.Inv added) : strm.nodes.length = added.length := by
  rw [← hinv.contents, StreamerView.contents, List.length_map, view, List.length_map]

theorem exists_node (hinv : strm.view.Inv added) {k : ℕ} (hk : k < added.length) :
    ∃ snode, strm.nodes[k]? = some snode := by
  rw [← length_nodes hinv] at hk
  exact ⟨_, List.getElem?_eq_getElem hk⟩

/-- A node that is not complete can be started. -/
theorem nodeStart_eq {k : ℕ} {snode : StreamerNode} (hk : strm.nodes[k]? = some snode)
    (hcomplete : snode.complete = false) :
    strm.nodeStart k = some ({ strm with current := some k }.setNodeReady k true) := by
  simp [nodeStart, hk, hcomplete]

/-- Data goes downstream as far as it is accepted. An end of file goes with it if the node is
final. -/
theorem passOn_view (strm : Streamer) (k : ℕ) (final : Bool) (data : List UInt8) (eof : Bool)
    (reply : WriteReply) : ∃ sent strm' writes,
      strm.passOn k final data eof reply = (sent, strm') ∧
      sent ≤ data.length ∧
      strm'.view = strm.view.offer (data.take sent) writes ∧
      ∀ w ∈ writes, w.eof = true →
        eof = true ∧ final = true ∧ w.before = strm.view.received ∧ w.offered = data := by
  have hnone : strm.view = strm.view.offer (data.take 0) [] := by simp [StreamerView.offer]
  cases hpaired : strm.paired with
  | false =>
    refine ⟨0, strm.setNodeReady k false, [], ?_, Nat.zero_le _, ?_, by simp⟩
    · simp [passOn, hpaired]
    · rw [view_setNodeReady]
      exact hnone
  | true =>
    cases hready : strm.nextOs.ready with
    | false =>
      refine ⟨0, { strm.setNodeReady k false with ready := true }, [], ?_, Nat.zero_le _, ?_,
        by simp⟩
      · simp [passOn, hpaired, hready]
      · exact (view_setNodeReady strm k false).trans hnone
    | true =>
      let sent := (strm.writeNext data (eof && final) reply).1
      let strm₁ := (strm.writeNext data (eof && final) reply).2
      have hsent : sent ≤ data.length := Nat.min_le_right _ _
      have hview : strm₁.view =
          strm.view.offer (data.take sent) [⟨strm.view.received, data, eof && final⟩] := rfl
      have hwrites : ∀ w ∈ [(⟨strm.view.received, data, eof && final⟩ : DownstreamWrite)],
          w.eof = true →
          eof = true ∧ final = true ∧ w.before = strm.view.received ∧ w.offered = data := by
        intro w hw heof
        obtain rfl := List.mem_singleton.mp hw
        obtain ⟨heof, hfinal⟩ := Bool.and_eq_true_iff.mp heof
        exact ⟨heof, hfinal, rfl, rfl⟩
      cases hready₁ : strm₁.nextOs.ready with
      | true =>
        refine ⟨sent, strm₁, _, ?_, hsent, hview, hwrites⟩
        simp [passOn, hpaired, hready, hready₁, sent, strm₁]
      | false =>
        refine ⟨sent, { strm₁.setNodeReady k false with ready := true }, _, ?_, hsent,
          (view_setNodeReady strm₁ k false).trans hview, hwrites⟩
        simp [passOn, hpaired, hready, hready₁, sent, strm₁]

theorem view_sourceGoesOn (strm : Streamer) (k sent : ℕ) (ready : Bool) :
    (strm.sourceGoesOn k sent ready).view = strm.view.advance k sent false := by
  refine view_modifyNode (fun snode => ?_) strm k
  simp [NodeProgress.advance]

theorem view_complete (strm : Streamer) (k : ℕ) :
    (strm.modifyNode k fun snode => { snode with complete := true }).view =
      strm.view.advance k 0 true := by
  refine view_modifyNode (fun snode => ?_) strm k
  simp [NodeProgress.advance]

/-- The current node is complete, and the next one is current if there is one. It has not been
complete before, so that no assertion fails. -/
theorem endOfNode_view {k : ℕ} (hcur : strm.current = some k) {done later : List NodeProgress}
    {n : NodeProgress} (h : Cursor strm.view.nodes k done n later) {final : Bool}
    (hfinal : final = true → later = []) : ∃ strm' next,
      strm.endOfNode k final = some strm' ∧
      (if later ≠ [] then next = k + 1 else next = k) ∧
      strm'.view = (strm.view.advance k 0 true).goTo next := by
  let strm₁ := strm.modifyNode k fun snode => { snode with complete := true }
  have hview₁ : strm₁.view = strm.view.advance k 0 true := view_complete strm k
  have hstay : strm₁.view = (strm.view.advance k 0 true).goTo k := by
    rw [← hview₁, StreamerView.goTo, ← hcur]
    rfl
  have hlength : strm₁.nodes.length = k + later.length + 1 := by
    rw [← h.length_nodes]
    simp [strm₁, modifyNode, view]
  cases hlater : later with
  | nil =>
    have hlast : ¬k + 1 < strm₁.nodes.length := by
      rw [hlength, hlater]
      simp
    cases final with
    | true => exact ⟨strm₁, k, rfl, by simp, hstay⟩
    | false =>
      refine ⟨{ strm₁.setNodeReady k false with ready := false }, k, if_neg hlast, by simp, ?_⟩
      exact (view_setNodeReady strm₁ k false).trans hstay
  | cons n' later' =>
    have hnext : k + 1 < strm₁.nodes.length := by
      rw [hlength, hlater]
      simp
    cases final with
    | true => simp [hlater] at hfinal
    | false =>
      have hn' : strm₁.view.nodes[k + 1]? = some n' := by
        rw [hview₁, StreamerView.advance, h.modify, hlater, ← h.length]
        simp
      rw [view_getElem?] at hn'
      obtain ⟨snode', hsnode', rfl⟩ := Option.map_eq_some_iff.mp hn'
      have huntouched : snode'.complete = false :=
        (h.untouched _ (hlater ▸ List.mem_cons_self ..)).1
      refine ⟨{ strm₁ with current := some (k + 1) }.setNodeReady (k + 1) true, k + 1, ?_,
        by simp, ?_⟩
      · exact (if_pos hnext).trans (nodeStart_eq hsnode' huntouched)
      · rw [view_setNodeReady, ← hview₁]
        rfl

/-- A write of the current node: the view is that of one step when the source has gone on, too. No
assertion fails. -/
theorem dataInWrite_view {k : ℕ} {snode : StreamerNode} (hcur : strm.current = some k)
    {done later : List NodeProgress} (h : Cursor strm.view.nodes k done snode.toNodeProgress later)
    (hfinal : snode.final = true → later = []) (data : List UInt8) (eof : Bool)
    (reply : WriteReply) : ∃ sent strm' complete next writes,
      strm.dataInWrite k snode.final data eof reply = some (sent, strm') ∧
      sent ≤ data.length ∧
      (complete = true → eof = true ∧ sent = data.length) ∧
      (if complete = true ∧ later ≠ [] then next = k + 1 else next = k) ∧
      (∀ w ∈ writes, w.eof = true → eof = true ∧ snode.final = true ∧
        w.before = strm.view.received ∧ w.offered = data) ∧
      strm'.view.advance k sent false =
        strm.view.pass k (data.take sent) complete next writes := by
  obtain ⟨sent, strm₁, writes, hpass, hsent, hview, hwrites⟩ : ∃ sent strm₁ writes,
      (if data ≠ [] ∨ eof = true then strm.passOn k snode.final data eof reply else (0, strm)) =
        (sent, strm₁) ∧ sent ≤ data.length ∧
      strm₁.view = strm.view.offer (data.take sent) writes ∧
      ∀ w ∈ writes, w.eof = true → eof = true ∧ snode.final = true ∧
        w.before = strm.view.received ∧ w.offered = data := by
    split
    · exact passOn_view strm k snode.final data eof reply
    · exact ⟨0, strm, [], rfl, Nat.zero_le _, by simp [StreamerView.offer], by simp⟩
  have hlength : (data.take sent).length = sent := by
    rw [List.length_take, Nat.min_eq_left hsent]
  have hcur₁ : strm₁.current = some k := by
    change strm₁.view.current = some k
    rw [hview]
    exact hcur
  by_cases hend : eof = true ∧ sent = data.length
  · have h₁ : Cursor strm₁.view.nodes k done snode.toNodeProgress later := by
      rw [hview]
      exact h
    obtain ⟨strm', next, heq, hnext, hview'⟩ := endOfNode_view hcur₁ h₁ hfinal
    refine ⟨sent, strm', true, next, writes, ?_, hsent, fun _ => hend, by simpa using hnext,
      hwrites, ?_⟩
    · simp only [dataInWrite, hcur, ne_eq, not_true_eq_false, if_false, hpass, if_pos hend, heq,
        Option.map_some]
    · rw [hview', hview, StreamerView.pass, hlength]
      exact ((strm.view.offer (data.take sent) writes).goTo next).advance_advance k sent
  · refine ⟨sent, strm₁, false, k, writes, ?_, hsent, by simp, by simp, hwrites, ?_⟩
    · simp only [dataInWrite, hcur, ne_eq, not_true_eq_false, if_false, hpass, if_neg hend]
    · have hgoTo : strm₁.view = strm₁.view.goTo k := by
        rw [StreamerView.goTo, ← hcur₁]
        rfl
      rw [hgoTo, hview, StreamerView.pass, hlength]

/-- A write of a source keeps the invariant, and no assertion fails. -/
theorem exists_sourceWrite (hinv : strm.view.Inv added) {k : ℕ} (hk : k < added.length)
    (w : SourceWrite) :
    ∃ strm', strm.sourceWrite k w = some strm' ∧ strm'.view.Inv added := by
  obtain ⟨snode, hsnode⟩ := exists_node hinv hk
  let eof := w.eof && snode.rest.length ≤ w.size
  have hwrite : strm.sourceWrite k w =
      (strm.dataInWrite k snode.final (snode.rest.take w.size) eof w.reply).map
        fun r => r.2.sourceGoesOn k r.1 w.ready := by
    rw [sourceWrite, hsnode]
    rfl
  by_cases hcur : strm.current = some k
  · have hpos := hinv.positioned
    rw [show strm.view.current = some k from hcur] at hpos
    obtain ⟨done, n, later, h⟩ := hpos
    obtain rfl : n = snode.toNodeProgress := by
      have := h.getElem?
      rw [view_getElem?, hsnode] at this
      exact (Option.some.inj this).symm
    have hfinal : snode.final = true → later = [] := fun hf => by
      have := (hinv.final k _ h.getElem? hf).2
      rw [h.length_nodes] at this
      exact List.length_eq_zero_iff.mp (by omega)
    obtain ⟨sent, strm', complete, next, writes, heq, hsent, hcomplete, hnext, hwrites, hview⟩ :=
      dataInWrite_view hcur h hfinal (snode.rest.take w.size) eof w.reply
    have hall : eof = true → snode.rest.take w.size = snode.rest := fun heof =>
      List.take_of_length_le (by simpa using (Bool.and_eq_true_iff.mp heof).2)
    refine ⟨_, by rw [hwrite, heq]; rfl, ?_⟩
    rw [view_sourceGoesOn, hview]
    rw [List.length_take] at hsent
    refine hinv.pass hcur h (m := sent) ?_ (by omega) (fun hc => ?_) hnext fun w' hw' heof => ?_
    · rw [List.take_take, Nat.min_eq_left (by omega)]
    · obtain ⟨heof, hlength⟩ := hcomplete hc
      rw [hlength, hall heof]
    · obtain ⟨heof, hf, hbefore, hoffered⟩ := hwrites w' hw' heof
      exact ⟨hf, hbefore, hoffered.trans (hall heof)⟩
  · refine ⟨(strm.setNodeReady k false).sourceGoesOn k 0 w.ready, ?_, ?_⟩
    · rw [hwrite, dataInWrite, if_pos hcur]
      rfl
    · rw [view_sourceGoesOn, StreamerView.advance_zero, view_setNodeReady]
      exact hinv

/-- A `do_write` of a source keeps the invariant, and no assertion fails. -/
theorem exists_sourceDoWrite (hinv : strm.view.Inv added) {k : ℕ} (hk : k < added.length)
    (ws : List SourceWrite) :
    ∃ strm', strm.sourceDoWrite k ws = some strm' ∧ strm'.view.Inv added := by
  induction ws generalizing strm with
  | nil => exact ⟨strm, rfl, hinv⟩
  | cons w ws ih =>
    obtain ⟨strm₁, hwrite, hinv₁⟩ := exists_sourceWrite hinv hk w
    obtain ⟨strm', hrest, hinv'⟩ := ih hinv₁
    exact ⟨strm', by rw [sourceDoWrite, hwrite, Option.bind_some, hrest], hinv'⟩

theorem view_awaitSource (strm : Streamer) (k : ℕ) : (strm.awaitSource k).view = strm.view := by
  rw [awaitSource]
  split
  · split
    · rfl
    · exact view_setNodeReady strm k true
  · rfl

/-- The streamer keeps the invariant when the downstream ostream asks for data. -/
theorem inv_dataOutDoWrite (hinv : strm.view.Inv added) {script : List SourceWrite}
    {reply : WriteReply} (h : strm.dataOutDoWrite script reply = some strm') :
    strm'.view.Inv added := by
  rw [dataOutDoWrite] at h
  split at h
  · rename_i hcur
    split at h
    · rename_i hforce
      obtain rfl := Option.some.inj h
      have hwrite := hinv.writeEof hcur hforce
      have hview : { (strm.writeNext [] true reply).2 with ready := false }.view =
          strm.view.writeEof := by
        simp [view, writeNext, NextOs.write, StreamerView.writeEof]
      rw [hview]
      exact hwrite
    · contradiction
  · rename_i k hcur
    split at h
    · contradiction
    · rename_i snode hsnode
      have hk : k < added.length := by
        rw [← length_nodes hinv]
        exact (List.getElem?_eq_some_iff.mp hsnode).1
      split at h
      · split at h
        · have hinv₁ : (strm.setNodeReady k true).view.Inv added := by
            rw [view_setNodeReady]
            exact hinv
          obtain ⟨strm₁, hdoWrite, hinv'⟩ := exists_sourceDoWrite hinv₁ hk script
          rw [hdoWrite] at h
          obtain rfl := Option.some.inj h
          rw [view_awaitSource]
          exact hinv'
        · obtain rfl := Option.some.inj h
          rw [view_awaitSource]
          exact hinv
      · obtain rfl := Option.some.inj h
        exact hinv

theorem view_pushNode (strm : Streamer) (content : List UInt8) :
    (strm.pushNode content).view = strm.view.append content strm.current := by
  simp [view, pushNode, StreamerView.append]

/-- Whether a streamer with one more node waits for it is seen at the current node. -/
theorem awaitsNode_pushNode {k : ℕ} (hcur : strm.current = some k) {done later : List NodeProgress}
    {n : NodeProgress} (h : Cursor strm.view.nodes k done n later) (content : List UInt8) :
    (strm.pushNode content).awaitsNode = n.complete := by
  have hk := h.getElem?
  rw [view_getElem?] at hk
  obtain ⟨snode, hsnode, rfl⟩ := Option.map_eq_some_iff.mp hk
  have hpush : (strm.pushNode content).nodes[k]? = some snode := by
    rw [pushNode, List.getElem?_append_left (List.getElem?_eq_some_iff.mp hsnode).1, hsnode]
  have hcurrent : (strm.pushNode content).current = some k := hcur
  simp [awaitsNode, hcurrent, hpush]

/-- A node is added to an open streamer. It is started if the streamer has been waiting for it. -/
theorem inv_addNode (hinv : strm.view.Inv added) (hclosed : strm.closed = false)
    {content : List UInt8} (h : strm.addNode content = some strm') :
    strm'.view.Inv (added ++ [content]) := by
  have hstart : (strm.pushNode content).nodeStart strm.nodes.length =
      some ({ strm.pushNode content with current := some strm.nodes.length }.setNodeReady
        strm.nodes.length true) := by
    have hlast : (strm.pushNode content).nodes[strm.nodes.length]? =
        some { content := content } := by simp [pushNode]
    exact nodeStart_eq hlast rfl
  have hstarted : ({ strm.pushNode content with current := some strm.nodes.length }.setNodeReady
      strm.nodes.length true).view = strm.view.append content (some strm.nodes.length) := by
    rw [view_setNodeReady]
    simp [view, pushNode, StreamerView.append]
  have hnode : ({ content := content } : NodeProgress).Untouched := ⟨rfl, rfl⟩
  have hlength : strm.view.nodes.length = strm.nodes.length := List.length_map _
  have hpos := hinv.positioned
  simp only [addNode, hstart] at h
  cases hcur : strm.current with
  | none =>
    rw [show strm.view.current = none from hcur] at hpos
    cases hrunning : strm.running with
    | false =>
      have hwait : (strm.pushNode content).running = false := hrunning
      rw [hwait, Bool.false_and, if_neg Bool.false_ne_true] at h
      obtain rfl := Option.some.inj h
      rw [view_pushNode, hcur]
      refine hinv.append hclosed content (fun n hn => ?_) ?_
      · rcases List.mem_append.mp hn with hn | hn
        · exact hpos n hn
        · obtain rfl := List.mem_singleton.mp hn
          exact hnode
      · simp [view, hrunning]
    | true =>
      have hempty : strm.view.nodes = [] := hinv.idle hrunning hcur
      have hwait : ((strm.pushNode content).running && (strm.pushNode content).awaitsNode) =
          true := by
        simp [pushNode, awaitsNode, hrunning, hcur]
      rw [if_pos hwait] at h
      obtain rfl := Option.some.inj h
      rw [hstarted]
      refine hinv.append hclosed content ?_ (by simp [view, hrunning])
      rw [← hlength, hempty]
      exact ⟨[], _, [], Cursor.first (by simpa using hnode)⟩
  | some k =>
    rw [show strm.view.current = some k from hcur] at hpos
    obtain ⟨done, n, later, hn⟩ := hpos
    have hrunning : strm.running = true := hinv.running (by simp [view, hcur])
    have hwait : ((strm.pushNode content).running && (strm.pushNode content).awaitsNode) =
        n.complete := by
      rw [awaitsNode_pushNode hcur hn]
      simp [pushNode, hrunning]
    rw [hwait] at h
    cases hcomplete : n.complete with
    | false =>
      rw [hcomplete, if_neg Bool.false_ne_true] at h
      obtain rfl := Option.some.inj h
      rw [view_pushNode, hcur]
      exact hinv.append hclosed content ⟨done, n, later ++ [_], hn.append hcomplete hnode⟩
        (by simp [view, hrunning])
    | true =>
      rw [hcomplete, if_pos rfl] at h
      obtain rfl := Option.some.inj h
      rw [hstarted, ← hlength]
      exact hinv.append hclosed content ⟨_, _, _, hn.append_next hcomplete hnode⟩
        (by simp [view, hrunning])

/-- While the streamer is open no node is final, so that no mark is removed. -/
theorem inv_appendNode (hinv : strm.view.Inv added) (hclosed : strm.closed = false)
    {content : List UInt8} (h : strm.appendNode content = some strm') :
    strm'.view.Inv (added ++ [content]) := by
  have hview := view_modifyNode (f := fun snode => { snode with final := false })
    (e := fun n => { n with final := false }) (fun _ => rfl) strm (strm.nodes.length - 1)
  have hsame := modify_eq_self_of_mem (f := fun n : NodeProgress => { n with final := false })
    (fun n hn => by rw [← hinv.not_final hclosed hn]) (strm.nodes.length - 1)
  rw [hsame] at hview
  rw [appendNode] at h
  refine inv_addNode ?_ ?_ h
  · rw [hview]
    exact hinv
  · exact hclosed

/-- The streamer is started. A second start fails if the first node is complete. -/
theorem inv_start (hinv : strm.view.Inv added) (h : strm.start = some strm') :
    strm'.view.Inv added := by
  simp only [start] at h
  split at h
  · rename_i hne
    rw [nodeStart] at h
    split at h
    · rename_i snode hsnode
      split at h
      · contradiction
      · rename_i hcomplete
        obtain rfl := Option.some.inj h
        rw [view_setNodeReady]
        have hstart := hinv.start fun n hn => by
          rw [view_getElem?, show strm.nodes[0]? = some snode from hsnode] at hn
          obtain rfl := Option.some.inj hn
          exact Bool.eq_false_of_not_eq_true hcomplete
        have hview : { strm with running := true, current := some 0 }.view = strm.view.start := by
          simp [view, StreamerView.start, hne]
        exact hview ▸ hstart
    · contradiction
  · rename_i hnodes
    have hnil : strm.nodes = [] := not_not.mp hnodes
    have hstart := hinv.start (by simp [view, hnil])
    have hview : strm.view.start = { strm with running := true }.view := by
      simp [view, StreamerView.start, hnil]
    rw [hview] at hstart
    split at h
    · obtain rfl := Option.some.inj h
      exact hstart
    · obtain rfl := Option.some.inj h
      exact hstart

/-- The streamer is closed. An end of file is forced only if it has no node, or if the last one is
complete. -/
theorem inv_close (hinv : strm.view.Inv added) : strm.close.view.Inv added := by
  cases hlast : strm.nodes.getLast? with
  | none =>
    have hnil : strm.nodes = [] := List.getLast?_eq_none_iff.mp hlast
    have hview : strm.close.view = strm.view.close true := by
      simp [close, view, StreamerView.close, hnil]
    rw [hview]
    exact hinv.close fun _ => .inr (by simp [view, hnil])
  | some snode =>
    have hview : strm.close.view = strm.view.close (strm.forceEof || snode.complete) := by
      have hfinal := map_modify (f := fun snode : StreamerNode => { snode with final := true })
        (g := StreamerNode.toNodeProgress) (e := fun n => { n with final := true })
        (fun _ => rfl) strm.nodes (strm.nodes.length - 1)
      simp [close, hlast, view, modifyNode, StreamerView.close, hfinal]
    rw [hview]
    refine hinv.close fun hforce => ?_
    rcases Bool.or_eq_true_iff.mp hforce with hforce | hcomplete
    · exact .inl hforce
    · refine .inr fun n hn => ?_
      rw [view, List.getLast?_map, hlast] at hn
      obtain rfl := Option.some.inj hn
      exact hcomplete

/-- An event keeps the invariant. -/
theorem inv_step (hinv : strm.view.Inv added) {event : StreamerEvent}
    (h : strm.step event = some strm') :
    strm'.view.Inv (added ++ addedContents [event]) := by
  have hsame : ∀ {strm : Streamer}, strm.view.Inv added → strm.view.Inv (added ++ []) :=
    fun hinv => by rwa [List.append_nil]
  cases event with
  | addNode content =>
    simp only [step] at h
    split at h
    · contradiction
    · rename_i hclosed
      exact inv_appendNode hinv (Bool.eq_false_of_not_eq_true hclosed) h
  | start => exact hsame (inv_start hinv h)
  | close =>
    obtain rfl := Option.some.inj h
    exact hsame (inv_close hinv)
  | connectSource k ready =>
    simp only [step] at h
    split at h
    · split at h
      · contradiction
      · obtain rfl := Option.some.inj h
        refine hsame ?_
        rw [view_modifyNode_of_eq
          (f := fun snode => { snode with connected := true, sourceReady := ready })
          fun _ => rfl]
        exact hinv
    · contradiction
  | sourceReady k ready =>
    obtain rfl := Option.some.inj h
    refine hsame ?_
    rw [view_modifyNode_of_eq (f := fun snode => { snode with sourceReady := ready })
      fun _ => rfl]
    exact hinv
  | connectNext ready =>
    simp only [step] at h
    split at h
    · contradiction
    · obtain rfl := Option.some.inj h
      exact hsame hinv
  | nextReady ready =>
    obtain rfl := Option.some.inj h
    exact hsame hinv
  | deliverIn k script =>
    simp only [step] at h
    split at h
    · rename_i snode hsnode
      split at h
      · have hk : k < added.length := by
          rw [← length_nodes hinv]
          exact (List.getElem?_eq_some_iff.mp hsnode).1
        obtain ⟨strm₁, hdoWrite, hinv'⟩ := exists_sourceDoWrite hinv hk script
        rw [hdoWrite] at h
        obtain rfl := Option.some.inj h
        exact hsame hinv'
      · contradiction
    · contradiction
  | deliverOut script reply =>
    simp only [step] at h
    split at h
    · exact hsame (inv_dataOutDoWrite hinv h)
    · contradiction

/-- A run keeps the invariant. -/
theorem inv_run (hinv : strm.view.Inv added) {events : List StreamerEvent}
    (h : run step strm events = some strm') :
    strm'.view.Inv (added ++ addedContents events) := by
  induction events generalizing strm added with
  | nil =>
    obtain rfl := Option.some.inj h
    simpa [addedContents] using hinv
  | cons event events ih =>
    obtain ⟨strm₁, hstep, hrest⟩ := Option.bind_eq_some_iff.mp h
    have hcons : addedContents (event :: events) =
        addedContents [event] ++ addedContents events :=
      List.filterMap_append (l := [event])
    rw [hcons, ← List.append_assoc]
    exact ih (inv_step hinv hstep) hrest

theorem inv_init : ({} : Streamer).view.Inv [] where
  contents := rfl
  positioned := by simp [view, Positioned]
  received := rfl
  idle := fun _ _ => rfl
  running := fun h => absurd rfl h
  final := by simp [view]
  forceEof := by simp [view]
  ends := by simp [view]

/-- Whatever the order of events, what has been accepted downstream is a prefix of the contents of
the nodes in the order in which they were added. It consists of what was taken from each source,
once. An end of file is only written when the streamer has been closed, with the rest of the last
node and when all before it has been accepted. -/
theorem run_ordered {events : List StreamerEvent} (h : run step {} events = some strm) :
    strm.nextOs.received <+: (addedContents events).flatten ∧
    strm.nodes.map (·.content) = addedContents events ∧
    strm.nextOs.received = strm.nodes.flatMap (fun snode => snode.content.take snode.taken) ∧
    ∀ w ∈ strm.writes, w.eof = true → strm.closed = true ∧
      w.before ++ w.offered = (addedContents events).flatten ∧
      w.offered <:+ (addedContents events).getLast?.getD [] := by
  have hinv : strm.view.Inv (addedContents events) := inv_run inv_init h
  refine ⟨hinv.received_prefix, ?_, ?_, fun w hw heof => ?_⟩
  · rw [← hinv.contents, StreamerView.contents, view, List.map_map]
    rfl
  · refine hinv.received.trans ?_
    rw [acceptedBytes, view, List.flatMap_map]
    rfl
  · have hends := hinv.ends w hw heof
    rwa [StreamerView.Ends, hinv.contents] at hends

/-- The second of two nodes is added while the first is under way, and its source comes later. The
downstream ostream stops after one byte. -/
def lateSource : List StreamerEvent :=
  [.connectNext true, .addNode [1, 2], .start, .connectSource 0 true,
    .deliverIn 0 [⟨2, true, ⟨1, false⟩, true⟩], .addNode [3], .close, .nextReady true,
    .deliverOut [⟨1, true, ⟨1, true⟩, false⟩] ⟨0, true⟩, .connectSource 1 true,
    .deliverIn 1 [⟨1, true, ⟨1, true⟩, false⟩]]

theorem run_ordered_lateSource : ∃ strm, run step {} lateSource = some strm ∧
    strm.writes = [⟨[], [1, 2], false⟩, ⟨[1], [2], false⟩, ⟨[1, 2], [3], true⟩] ∧
    strm.nextOs.received <+: (addedContents lateSource).flatten :=
  ⟨_, rfl, rfl, (run_ordered rfl).1⟩

end Streamer

end Nxweb
