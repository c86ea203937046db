import Metcalfe.WSClient.Messages

/-!
# Requests and their answers

`invoke` of `WSClient.cpp` writes a request, waits up to five seconds for a message of the type
`response` and returns it in a normalized form. It takes any such message: neither the request
nor the choice names the other. An answer that comes after its `invoke` has given up stays in the
queue, and the next `invoke` returns it for its own.

An `invoke` is here the writing of its request and then one event for each evaluation of the
predicate of its wait: `look` while there is time and `expire` for the last one. Requests are
numbered, and the answers of the server carry the number of their request in `origin`, which the
client does not see.
-/

namespace Metcalfe.WSClient

open Steps

/-- What `invoke` uses of `Json::Value`, which is outside the repository. -/
class JsonValue (J : Type) where
  null : J
  ofString : String → J
  ofInt : Int → J
  /-- `operator bool`. -/
  toBool : J → Bool
  isMember : J → String → Bool
  /-- `operator[]` of a constant. -/
  get : J → String → J
  /-- An assignment to `operator[]`. -/
  set : J → String → J → J
  removeMember : J → String → J
  /-- `operator==`. -/
  eq : J → J → Bool

/-- A message of the server. -/
structure Wire (J : Type) where
  jv : J
  origin : Option Nat
deriving DecidableEq, Repr

structure Session (J : Type) where
  client : Client (Wire J)
  rpcVersion : Nat
  /-- The requests written so far. -/
  frames : List J
  /-- The number of the request whose `invoke` is waiting. -/
  waiting : Option Nat
  /-- The server will not answer the requests below this number any more. -/
  answered : Nat

inductive Event (J : Type) where
  | invoke (cmd : String) (params : J)
  | answer (request : Nat) (jv : J)
  | stream (jv : J)
  | broken (closed : Bool)
  | look
  | expire
  | getMsg
  | findMsg (pred : J → Bool)

variable {J : Type} [JsonValue J]

open JsonValue

/-- The request of `invoke`. -/
def request (rpcVersion : Nat) (cmd : String) (params : J) : J :=
  let jp := if toBool params then params else null
  if rpcVersion = 2 then
    let jp := set jp "method" (ofString cmd)
    let jp := set jp "jsonrpc" (ofString "2.0")
    let jp := set jp "mtchainrpc" (ofString "2.0")
    set jp "id" (ofInt 5)
  else set jp "command" (ofString cmd)

/-- The predicate by which `invoke` knows an answer. -/
def isResponse (jv : J) : Bool := eq (get jv "type") (ofString "response")

def normalize (jv : J) : J :=
  let jv := removeMember jv "type"
  if isMember jv "status" && eq (get jv "status") (ofString "error") then
    let ret := set null "result" jv
    let ret := if isMember jv "error" then set ret "error" (get jv "error") else ret
    set ret "status" (ofString "error")
  else if isMember jv "status" && isMember jv "result" then
    set jv "result" (set (get jv "result") "status" (get jv "status"))
  else jv

/-- What `invoke` returns, given the message it has found. -/
def reply : Option (Wire J) → J
  | some w => normalize w.jv
  | none => null

namespace Session

def new (rpcVersion : Nat) : Session J := ⟨Client.new, rpcVersion, [], none, 0⟩

/-- One evaluation of the predicate of the wait of `invoke`. -/
def search (s : Session J) : Option (Msg (Wire J)) × Client (Wire J) :=
  s.client.findMsg fun w => isResponse w.jv

def step (s : Session J) : Event J → Session J
  | .invoke cmd params =>
    { s with frames := s.frames ++ [request s.rpcVersion cmd params]
             waiting := some s.frames.length }
  | .answer k jv =>
    { s with client := s.client.step (.read (.ok ⟨jv, some k⟩)), answered := k + 1 }
  | .stream jv => { s with client := s.client.step (.read (.ok ⟨jv, none⟩)) }
  | .broken closed => { s with client := s.client.step (.read (.error closed)) }
  | .look =>
    match s.search with
    | (some _, client) => { s with client := client, waiting := none }
    | (none, _) => s
  | .expire => { s with client := s.search.2, waiting := none }
  | .getMsg => { s with client := s.client.step .getMsg }
  | .findMsg pred => { s with client := s.client.step (.findMsg fun w => pred w.jv) }

/-- The request whose `invoke` returns at the event, with the message it has found; `invoke` then
returns `reply` of it. -/
def returned (s : Session J) : Event J → Option (Nat × Option (Wire J))
  | .look => do
    let k ← s.waiting
    let m ← s.search.1
    return (k, some m.jv)
  | .expire => do
    let k ← s.waiting
    return (k, s.search.1.map (·.jv))
  | _ => none

/-- One `invoke` at a time; the server answers each request at most once and in the order of the
requests, with messages of other types in between. -/
def legal (s : Session J) : Event J → Bool
  | .invoke _ _ => s.waiting.isNone
  | .answer k jv => decide (s.answered ≤ k ∧ k < s.frames.length) && isResponse jv
  | .stream jv => !isResponse jv
  | .look => s.waiting.isSome
  | .expire => s.waiting.isSome
  | _ => true

/-- No answer to an earlier request is in the queue when `invoke` looks for its own, unless its own
is there as well. -/
def timelyAnswers (s : Session J) (e : Event J) : Bool :=
  match e, s.waiting with
  | .look, some k | .expire, some k =>
    s.client.msgs.any (fun m => m.jv.origin == some k) ||
      s.client.msgs.all fun m => m.jv.origin == none
  | _, _ => true

end Session

/-- The session after a sequence of events. -/
def session (rpcVersion : Nat) (events : List (Event J)) : Session J :=
  events.foldl Session.step (Session.new rpcVersion)

/-- If an `invoke` returns at the event, it returns the answer to its own request or nothing. -/
def Matched (s : Session J) (e : Event J) : Prop :=
  ∀ k w, s.returned e = some (k, some w) → w.origin = some k

/-! ## The order of the answers -/

/-- The answers in the queue are in the order of their requests, none of them later than the
request that is waiting. -/
structure Sequenced (s : Session J) : Prop where
  tagged : ∀ m ∈ s.client.msgs, isResponse m.jv.jv = m.jv.origin.isSome
  bound : ∀ m ∈ s.client.msgs, ∀ k, m.jv.origin = some k → k < s.answered
  sorted : s.client.msgs.Pairwise fun a b =>
    ∀ k l, a.jv.origin = some k → b.jv.origin = some l → l < k
  pending : s.answered ≤ s.frames.length
  waiting : ∀ k, s.waiting = some k → k + 1 = s.frames.length

namespace Sequenced

variable {s : Session J} {m : Msg (Wire J)}

theorem new (rpcVersion : Nat) : Sequenced (Session.new rpcVersion : Session J) := by
  constructor <;> simp [Session.new, Client.new]

/-- Messages leave the queue. -/
theorem shrink (h : Sequenced s) {client : Client (Wire J)} {waiting : Option Nat}
    (hsub : client.msgs.Sublist s.client.msgs)
    (hwait : ∀ k, waiting = some k → s.waiting = some k) :
    Sequenced { s with client := client, waiting := waiting } where
  tagged m hm := h.tagged m (hsub.subset hm)
  bound m hm := h.bound m (hsub.subset hm)
  sorted := h.sorted.sublist hsub
  pending := h.pending
  waiting k hk := h.waiting k (hwait k hk)

/-- A message comes in. An answer is to a later request than the answers before it. -/
theorem receive (h : Sequenced s) {w : Wire J} {answered : Nat}
    (htag : isResponse w.jv = w.origin.isSome)
    (hnew : ∀ k, w.origin = some k → s.answered ≤ k ∧ k < answered)
    (hle : s.answered ≤ answered) (hpending : answered ≤ s.frames.length) :
    Sequenced { s with client := s.client.step (.read (.ok w)), answered := answered } := by
  have hbound : ∀ m ∈ s.client.msgs, ∀ k, m.jv.origin = some k → k < answered :=
    fun m hm k hk => (h.bound m hm k hk).trans_le hle
  rcases s.client.read_msgs w with hms | hms
  · exact ⟨by simpa [hms] using h.tagged, by simpa [hms] using hbound,
      by simpa [hms] using h.sorted, hpending, h.waiting⟩
  · refine ⟨fun m hm => ?_, fun m hm => ?_, ?_, hpending, h.waiting⟩
    · simp only [hms] at hm
      rcases List.mem_cons.mp hm with rfl | hm
      · exact htag
      · exact h.tagged m hm
    · simp only [hms] at hm
      rcases List.mem_cons.mp hm with rfl | hm
      · exact fun k hk => (hnew k hk).2
      · exact hbound m hm
    · simp only [hms]
      refine List.pairwise_cons.mpr ⟨fun m hm k l hk hl => ?_, h.sorted⟩
      exact (h.bound m hm l hl).trans_le (hnew k hk).1

theorem search_sublist (s : Session J) : s.search.2.msgs.Sublist s.client.msgs :=
  s.client.step_sublist (.findMsg fun w => isResponse w.jv) (by simp)

theorem step (h : Sequenced s) {e : Event J} (hlegal : s.legal e = true) :
    Sequenced (s.step e) := by
  cases e with
  | invoke cmd params =>
    refine ⟨h.tagged, h.bound, h.sorted, ?_, ?_⟩
    · simpa [Session.step] using h.pending.trans (Nat.le_succ _)
    · rintro k ⟨⟩
      simp [Session.step]
  | answer k jv =>
    simp only [Session.legal, Bool.and_eq_true, decide_eq_true_eq] at hlegal
    obtain ⟨⟨hle, hlt⟩, hresp⟩ := hlegal
    refine h.receive (by simpa using hresp) ?_ (by omega) (by omega)
    rintro l ⟨⟩
    omega
  | stream jv =>
    simp only [Session.legal, Bool.not_eq_true'] at hlegal
    exact h.receive (by simpa using hlegal) (by simp) le_rfl h.pending
  | broken closed => exact h.shrink (s.client.step_sublist _ (by simp)) fun _ hk => hk
  | look =>
    have hsub := search_sublist s
    simp only [Session.step]
    split
    · rename_i m client hs
      rw [hs] at hsub
      exact h.shrink hsub (by simp)
    · exact h
  | expire => exact h.shrink (search_sublist s) (by simp)
  | getMsg => exact h.shrink (s.client.step_sublist _ (by simp)) fun _ hk => hk
  | findMsg pred => exact h.shrink (s.client.step_sublist _ (by simp)) fun _ hk => hk

/-- The message that `invoke` finds is the newest answer: its own, if that has arrived. -/
theorem search_own_iff (h : Sequenced s) {k : Nat} (hk : s.waiting = some k) :
    (∀ m, s.search.1 = some m → m.jv.origin = some k) ↔
      (s.client.msgs.any (fun m => m.jv.origin == some k) ||
        s.client.msgs.all fun m => m.jv.origin == none) = true := by
  unfold Session.search Client.findMsg
  simp only [Bool.or_eq_true, List.any_eq_true, List.all_eq_true, beq_iff_eq]
  have horigin : ∀ x ∈ s.client.msgs, isResponse x.jv.jv = false → x.jv.origin = none :=
    fun x hx hr => by simpa [hr] using (h.tagged x hx).symm
  cases hf : Client.find (fun w : Wire J => isResponse w.jv) s.client.msgs with
  | none =>
    have hnone := Client.find_eq_none hf
    refine ⟨fun _ => Or.inr fun x hx => horigin x hx (hnone x hx), fun _ m hm => by simp at hm⟩
  | some r =>
    obtain ⟨m, rest⟩ := r
    obtain ⟨front, back, hms, -, hm, hfront⟩ := Client.find_eq_some hf
    have hmem : m ∈ s.client.msgs := by simp [hms]
    obtain ⟨j, hj⟩ := Option.isSome_iff_exists.mp ((h.tagged m hmem).symm.trans hm)
    have hjk : j ≤ k := by
      have h₁ := h.bound m hmem j hj
      have h₂ := h.pending
      have h₃ := h.waiting k hk
      omega
    constructor
    · intro hown
      exact Or.inl ⟨m, hmem, hown m rfl⟩
    · rintro (⟨x, hx, hxk⟩ | hall)
      · rintro m' ⟨⟩
        rw [hms] at hx
        rcases List.mem_append.mp hx with hx | hx
        · rw [horigin x (by simp [hms, hx]) (hfront x hx)] at hxk
          cases hxk
        · rcases List.mem_cons.mp hx with rfl | hx
          · exact hxk
          · -- an older answer is to an earlier request
            have hsorted := h.sorted
            rw [hms] at hsorted
            have := (List.pairwise_cons.mp (List.pairwise_append.mp hsorted).2.1).1 x hx j k hj hxk
            omega
      · rw [hall m hmem] at hj
        cases hj

theorem matched_iff (h : Sequenced s) {e : Event J} (hlegal : s.legal e = true) :
    Matched s e ↔ s.timelyAnswers e = true := by
  unfold Matched Session.timelyAnswers Session.returned
  cases e with
  | look | expire =>
    obtain ⟨k, hk⟩ := Option.isSome_iff_exists.mp hlegal
    rw [hk]
    simp only
    rw [← h.search_own_iff hk]
    cases s.search.1 with
    | none => simp
    | some m => simp
  | _ => simp

theorem run {rpcVersion : Nat} {events : List (Event J)}
    (hlegal : along Session.step Session.legal (Session.new rpcVersion) events = true) :
    Sequenced (session rpcVersion events) :=
  invariant (fun _ _ hop h => h.step hop) (new rpcVersion) hlegal

end Sequenced

/-- Replies are paired with their requests in exactly those schedules in which, whenever an
`invoke` looks for its answer, no answer to an earlier request is in the queue without its own. -/
theorem invoke_matched_iff {rpcVersion : Nat} {events : List (Event J)}
    (hlegal : along Session.step Session.legal (Session.new rpcVersion) events = true) :
    (∀ pre e, pre ++ [e] <+: events → Matched (session rpcVersion pre) e) ↔
      along Session.step Session.timelyAnswers (Session.new rpcVersion) events = true := by
  have hone : ∀ pre e, pre ++ [e] <+: events →
      (Matched (session rpcVersion pre) e ↔ (session rpcVersion pre).timelyAnswers e = true) := by
    intro pre e hpre
    have hlegal' := along_of_isPrefix ((List.prefix_append pre [e]).trans hpre) hlegal
    exact (Sequenced.run hlegal').matched_iff (along_iff.mp hlegal pre e hpre)
  rw [along_iff]
  exact forall_congr' fun pre => forall_congr' fun e => forall_congr' fun hpre => hone pre e hpre

/-! ## A value type -/

/-- Values with their members in the order in which they were set. -/
inductive Tree where
  | null
  | text (s : String)
  | number (n : Int)
  | empty
  | member (key : String) (value rest : Tree)
deriving DecidableEq, Repr

namespace Tree

def get : Tree → String → Tree
  | member k v rest, key => if k = key then v else rest.get key
  | _, _ => null

def set : Tree → String → Tree → Tree
  | member k v rest, key, value =>
    if k = key then member k value rest else member k v (rest.set key value)
  | _, key, value => member key value empty

def isMember : Tree → String → Bool
  | member k _ rest, key => k = key || rest.isMember key
  | _, _ => false

def removeMember : Tree → String → Tree
  | member k v rest, key => if k = key then rest else member k v (rest.removeMember key)
  | t, _ => t

instance : JsonValue Tree where
  null := null
  ofString := text
  ofInt := number
  toBool t := t != null
  isMember := isMember
  get := get
  set := set
  removeMember := removeMember
  eq a b := a == b

/-- An answer of the server with a result. -/
def response (result : String) : Tree :=
  member "type" (text "response") (member "result" (text result) empty)

end Tree

/-- The answer to the first request arrives when its `invoke` has given up, and the second `invoke`
returns it. -/
theorem late_answer_returned :
    ∃ events : List (Event Tree),
      along Session.step Session.legal (Session.new 2) events = true ∧
      ∃ pre e w, pre ++ [e] <+: events ∧ (session 2 pre).returned e = some (1, some w) ∧
        w.origin = some 0 :=
  ⟨[.invoke "ping" .null, .expire, .answer 0 (.response "late"), .invoke "ping" .null, .look],
    by decide, [.invoke "ping" .null, .expire, .answer 0 (.response "late"),
      .invoke "ping" .null], .look, ⟨.response "late", some 0⟩, List.prefix_refl _, rfl, rfl⟩

/-- Two requests, each answered in time, with a stream message between them. -/
def promptEvents : List (Event Tree) :=
  [.invoke "ping" .null, .answer 0 (.response "first"), .look,
    .stream (.member "type" (.text "ledgerClosed") .empty), .invoke "ping" .null, .look,
    .answer 1 (.response "second"), .expire]

theorem invoke_matched_iff_prompt :
    along Session.step Session.legal (Session.new 2) promptEvents = true ∧
    ∀ pre e, pre ++ [e] <+: promptEvents → Matched (session 2 pre) e :=
  ⟨by decide, (invoke_matched_iff (by decide)).mpr (by decide)⟩

end Metcalfe.WSClient
