import Metcalfe.Http.Message
import Metcalfe.Library.Outcome
import Mathlib.Tactic

/-!
# The validator site of the tests

`do_peer` of `http_sync_server` in `ValidatorSite_test.cpp` reads requests from one connection and
answers them until a read or a write fails. A request for another path than `/validators` is
answered by a 404, and control then goes on to the answer with the list: the branch of the 404
has no `continue`. Such a request has two answers, and every later one of the connection is
answered one place too late. The answers take over the version of the request. The parser accepts
every version of two digits, and `write` asserts that it is 1.0 or 1.1.
-/

namespace Metcalfe.ValidatorSite

open BigEndian (Bytes)
open Http Outcome

/-- What `do_peer` reads of a request. -/
structure Request where
  url : Bytes
  version : Nat
deriving DecidableEq, Repr

inductive ErrorCode where
  | eof
  | system (value : Nat)
deriving DecidableEq

/-- Why `do_peer` does not go on: the error of a read or of a write, the assertion of
`write_start_line`, or an exception that it does not catch. -/
inductive Cause where
  | read (ec : ErrorCode)
  | write (ec : ErrorCode)
  | assertion
  | thrown (what : Bytes)
deriving DecidableEq

/-- The end of a connection, with the responses that are written. -/
structure Stop where
  sent : List Response
  cause : Cause
deriving DecidableEq

/-- The fields of every response of this server. -/
def serverFields (contentType : String) : Fields :=
  (Fields.insert [] (text "Server") (text "http_sync_server")).insert (text "Content-Type")
    (text contentType)

def notFound (req : Request) : Response where
  status := 404
  reason := text "Not Found"
  version := req.version
  fields := serverFields "text/html"
  body := text "The file '" ++ req.url ++ text "' was not found"

def listResponse (list : Bytes) (req : Request) : Response where
  status := 200
  reason := text "OK"
  version := req.version
  fields := serverFields "application/json"
  body := list

def internalError (what : Bytes) (req : Request) : Response where
  status := 500
  reason := text "Internal Error"
  version := req.version
  fields := serverFields "text/html"
  body := text "An internal error occurred" ++ what

section

variable (list : Bytes) (fails : Nat → Option ErrorCode)

/-- `prepare` where nothing catches its exceptions. -/
def prepareOrThrow (sent : List Response) (res : Response) : Except Stop Response :=
  match prepare res with
  | .ok res => .ok res
  | .error what => .error ⟨sent, .thrown what⟩

/-- `write` and the check of `ec`. `fails` tells which of the writes fail on the socket. -/
def write (sent : List Response) (res : Response) : Except Stop (List Response) :=
  -- `write_start_line` comes before anything is sent
  if res.version ≠ 10 ∧ res.version ≠ 11 then .error ⟨sent, .assertion⟩
  else
    match fails sent.length with
    | some ec => .error ⟨sent, .write ec⟩
    | none => if closes res then .error ⟨sent ++ [res], .write .eof⟩ else .ok (sent ++ [res])

/-- The branch of the 404. -/
def doNotFound (sent : List Response) (req : Request) : Except Stop (List Response) := do
  if req.url ≠ text "/validators" then
    let res ← prepareOrThrow sent (notFound req)
    write fails sent res
  else
    return sent

/-- The rest of the round, which every request reaches. -/
def doList (sent : List Response) (req : Request) : Except Stop (List Response) := do
  let res ← match prepare (listResponse list req) with
    | .ok res => .ok res
    | .error what => prepareOrThrow sent (internalError what req)
  write fails sent res

/-- One round of the loop. -/
def doRequest (sent : List Response) (req : Request) : Except Stop (List Response) := do
  let sent ← doNotFound fails sent req
  doList list fails sent req

/-- The loop, over the results of the reads so far. -/
def doPeer : List Response → List (Except ErrorCode Request) → Except Stop (List Response)
  | sent, [] => .ok sent
  | sent, .error ec :: _ => .error ⟨sent, .read ec⟩
  | sent, .ok req :: reads => do
    let sent ← doRequest list fails sent req
    doPeer sent reads

end

/-! ## What is written -/

variable {fails : Nat → Option ErrorCode} {sent : List Response}

theorem plain_of_serverFields {contentType : String} {res : Response}
    (hfields : res.fields = serverFields contentType)
    (hstatus : res.status / 100 ≠ 1 ∧ res.status ≠ 204 ∧ res.status ≠ 304) : Plain res := by
  have hnames : ∀ name ∈ [text "Connection", text "Content-Length", text "Transfer-Encoding"],
      ciEqual (text "Server") name = false ∧ ciEqual (text "Content-Type") name = false := by
    decide
  have hhas : ∀ name ∈ [text "Connection", text "Content-Length", text "Transfer-Encoding"],
      res.fields.has name = false := by
    intro name hname
    obtain ⟨hserver, htype⟩ := hnames name hname
    rw [hfields, serverFields, Fields.has_insert, Fields.has_insert, hserver, htype]
    rfl
  exact ⟨hhas _ (by simp), hhas _ (by simp), hhas _ (by simp), hstatus⟩

theorem plain_notFound (req : Request) : Plain (notFound req) :=
  plain_of_serverFields rfl (by norm_num [notFound])

theorem plain_listResponse (list : Bytes) (req : Request) : Plain (listResponse list req) :=
  plain_of_serverFields rfl (by norm_num [listResponse])

/-- The responses that one round writes. -/
def replies (list : Bytes) (req : Request) : List Response :=
  if req.url = text "/validators" then
    [withLength (listResponse list req)]
  else
    [withLength (notFound req), withLength (listResponse list req)]

/-- The version is one that `write_start_line` knows. -/
def Request.Versioned (req : Request) : Prop := req.version = 10 ∨ req.version = 11

/-- The requests that were read. -/
def requests (reads : List (Except ErrorCode Request)) : List Request :=
  reads.filterMap Except.toOption

theorem mem_requests {reads : List (Except ErrorCode Request)} {req : Request} :
    req ∈ requests reads ↔ .ok req ∈ reads := by
  unfold requests
  rw [List.mem_filterMap]
  constructor
  · rintro ⟨r, hr, hreq⟩
    cases r with
    | error ec => cases hreq
    | ok req' =>
      cases hreq
      exact hr
  · exact fun h => ⟨_, h, rfl⟩

theorem requests_map_ok (rs : List Request) : requests (rs.map .ok) = rs := by
  unfold requests
  rw [List.filterMap_map]
  exact List.filterMap_some

/-- Some write or read fails, or a request has a version that cannot be written. -/
def Failing (fails : Nat → Option ErrorCode) (reads : List (Except ErrorCode Request)) : Prop :=
  (∃ k ec, fails k = some ec) ∨ (∃ ec, .error ec ∈ reads) ∨
    ∃ req ∈ requests reads, ¬ req.Versioned

/-- The connection ends after some of these responses, because of a failure. -/
def EndsWithin (fails : Nat → Option ErrorCode) (reads : List (Except ErrorCode Request))
    (sent responses : List Response) (stop : Stop) : Prop :=
  (∃ pre, pre <+: responses ∧ stop.sent = sent ++ pre) ∧ Failing fails reads

theorem EndsWithin.append {reads : List (Except ErrorCode Request)} {rs rs' : List Response}
    {stop : Stop} (h : EndsWithin fails reads (sent ++ rs) rs' stop) :
    EndsWithin fails reads sent (rs ++ rs') stop := by
  obtain ⟨⟨pre, hpre, hsent⟩, hfail⟩ := h
  refine ⟨⟨rs ++ pre, (List.prefix_append_right_inj rs).mpr hpre, ?_⟩, hfail⟩
  rw [hsent, List.append_assoc]

theorem EndsWithin.mono {reads reads' : List (Except ErrorCode Request)} {rs rs' : List Response}
    {stop : Stop} (h : EndsWithin fails reads sent rs stop) (hrs : rs <+: rs')
    (hreads : reads ⊆ reads') : EndsWithin fails reads' sent rs' stop := by
  obtain ⟨⟨pre, hpre, hsent⟩, hfail⟩ := h
  refine ⟨⟨pre, hpre.trans hrs, hsent⟩, hfail.imp_right fun hfail => ?_⟩
  rcases hfail with ⟨ec, hec⟩ | ⟨req, hreq, hnot⟩
  · exact .inl ⟨ec, hreads hec⟩
  · exact .inr ⟨req, mem_requests.mpr (hreads (mem_requests.mp hreq)), hnot⟩

theorem write_ends (fails : Nat → Option ErrorCode) (sent : List Response) {res : Response}
    (h : Plain res) {req : Request} (hversion : res.version = req.version) :
    Ends (write fails sent (withLength res))
      (fun s => s = sent ++ [withLength res] ∧ req.Versioned)
      (EndsWithin fails [.ok req] sent [withLength res]) := by
  unfold write
  by_cases hreq : req.Versioned
  · have hknown : ¬ ((withLength res).version ≠ 10 ∧ (withLength res).version ≠ 11) := by
      rintro ⟨h10, h11⟩
      exact hreq.elim (fun h => h10 (hversion.trans h)) fun h => h11 (hversion.trans h)
    rw [if_neg hknown]
    cases hf : fails sent.length with
    | some ec => exact ⟨⟨[], List.nil_prefix, by simp⟩, Or.inl ⟨sent.length, ec, hf⟩⟩
    | none =>
      dsimp only
      rw [if_neg (by simp [h.not_closes])]
      exact ⟨rfl, hreq⟩
  · rw [if_pos]
    · exact ⟨⟨[], List.nil_prefix, by simp⟩,
        Or.inr (Or.inr ⟨req, mem_requests.mpr List.mem_cons_self, hreq⟩)⟩
    · exact ⟨fun h10 => hreq (Or.inl (hversion.symm.trans h10)),
        fun h11 => hreq (Or.inr (hversion.symm.trans h11))⟩

theorem doList_ends (list : Bytes) (fails : Nat → Option ErrorCode) (sent : List Response)
    (req : Request) : Ends (doList list fails sent req)
      (fun s => s = sent ++ [withLength (listResponse list req)] ∧ req.Versioned)
      (EndsWithin fails [.ok req] sent [withLength (listResponse list req)]) := by
  unfold doList
  rw [(plain_listResponse list req).prepare_eq]
  exact write_ends fails sent (plain_listResponse list req) rfl

theorem doRequest_ends (list : Bytes) (fails : Nat → Option ErrorCode) (sent : List Response)
    (req : Request) : Ends (doRequest list fails sent req)
      (fun s => s = sent ++ replies list req ∧ req.Versioned)
      (EndsWithin fails [.ok req] sent (replies list req)) := by
  unfold doRequest doNotFound replies
  by_cases hurl : req.url = text "/validators"
  · rw [if_neg (not_not.mpr hurl), if_pos hurl]
    exact doList_ends list fails sent req
  · rw [if_pos hurl, if_neg hurl, prepareOrThrow, (plain_notFound req).prepare_eq]
    have hwrite := write_ends fails sent (plain_notFound req) (show _ = req.version from rfl)
    refine Ends.bind (R := fun s => s = sent ++ [withLength (notFound req)]) ?_ ?_
    · refine hwrite.mono (fun _ h => h.1) fun stop h => h.mono ?_ (List.Subset.refl _)
      exact List.prefix_append [_] [_]
    · rintro _ rfl
      refine (doList_ends list fails _ req).mono ?_ fun stop h => h.append
      rintro s ⟨hs, hreq⟩
      refine ⟨?_, hreq⟩
      rw [hs, List.append_assoc, List.singleton_append]

/-- The loop writes the replies to the requests one after another, and stops earlier only when a
read or a write fails or a version cannot be written. -/
theorem doPeer_ends (list : Bytes) (fails : Nat → Option ErrorCode)
    (reads : List (Except ErrorCode Request)) (sent : List Response) :
    Ends (doPeer list fails sent reads)
      (fun s => s = sent ++ (requests reads).flatMap (replies list) ∧
        ∀ req ∈ requests reads, req.Versioned)
      (EndsWithin fails reads sent ((requests reads).flatMap (replies list))) := by
  induction reads generalizing sent with
  | nil => simp [doPeer, requests]
  | cons r reads ih =>
    cases r with
    | error ec => exact ⟨⟨[], List.nil_prefix, by simp⟩, Or.inr (Or.inl ⟨ec, by simp⟩)⟩
    | ok req =>
      have hcons : requests (.ok req :: reads) = req :: requests reads := rfl
      have hflat : (requests (.ok req :: reads)).flatMap (replies list) =
          replies list req ++ (requests reads).flatMap (replies list) := rfl
      rw [doPeer, hflat, hcons]
      refine Ends.bind (R := fun s => s = sent ++ replies list req ∧ req.Versioned) ?_ ?_
      · refine (doRequest_ends list fails sent req).mono (fun _ h => h) fun stop h => ?_
        exact h.mono (List.prefix_append _ _) (List.cons_subset_cons _ (List.nil_subset _))
      · rintro _ ⟨rfl, hreq⟩
        refine (ih _).mono ?_ fun stop h => ?_
        · rintro s ⟨hs, hall⟩
          refine ⟨?_, List.forall_mem_cons.mpr ⟨hreq, hall⟩⟩
          rw [hs, List.append_assoc]
        · exact h.append.mono (List.prefix_refl _) (List.subset_cons_self _ _)

/-- When no read and no write fails, the replies to all requests are written, or the version of one
of them stops the server. -/
theorem doPeer_all (list : Bytes) (rs : List Request) :
    Ends (doPeer list (fun _ => none) [] (rs.map .ok))
      (fun s => s = rs.flatMap (replies list) ∧ ∀ req ∈ rs, req.Versioned)
      (fun _ => ∃ req ∈ rs, ¬ req.Versioned) := by
  refine (doPeer_ends list (fun _ => none) (rs.map .ok) []).mono ?_ ?_
  · rintro s ⟨hs, hall⟩
    rw [requests_map_ok] at hs hall
    exact ⟨by rw [hs, List.nil_append], hall⟩
  · rintro stop ⟨-, ⟨k, ec, hk⟩ | ⟨ec, hec⟩ | hreq⟩
    · cases hk
    · obtain ⟨req, -, hreq⟩ := List.mem_map.mp hec
      cases hreq
    · rwa [requests_map_ok] at hreq

/-! ## One answer for each request -/

/-- The list with status 200 for the path `/validators`, and a 404 for every other one. -/
def Answers (list : Bytes) (req : Request) (res : Response) : Prop :=
  if req.url = text "/validators" then res.status = 200 ∧ res.body = list else res.status = 404

/-- When nothing fails, the responses answer the requests one by one. -/
def AnswersEach (list : Bytes) (rs : List Request) : Prop :=
  ∃ sent, doPeer list (fun _ => none) [] (rs.map .ok) = .ok sent ∧
    List.Forall₂ (Answers list) rs sent

theorem length_replies (list : Bytes) (rs : List Request) :
    (rs.flatMap (replies list)).length =
      rs.length + rs.countP fun req => req.url ≠ text "/validators" := by
  induction rs with
  | nil => rfl
  | cons req rs ih =>
    rw [List.flatMap_cons, List.length_append, ih, List.countP_cons, List.length_cons]
    unfold replies
    by_cases hurl : req.url = text "/validators"
    · simp [hurl]
      omega
    · simp [hurl]
      omega

theorem answersEach_iff (list : Bytes) (rs : List Request) :
    AnswersEach list rs ↔
      ∀ req ∈ rs, req.url = text "/validators" ∧ (req.version = 10 ∨ req.version = 11) := by
  unfold AnswersEach
  have hends := doPeer_all list rs
  constructor
  · rintro ⟨sent, hsent, hall⟩
    obtain ⟨rfl, hversion⟩ := hends.of_ok hsent
    -- a request for another path has two replies, so the counts agree only without one
    have hlen := hall.length_eq
    rw [length_replies] at hlen
    have hcount : rs.countP (fun req => req.url ≠ text "/validators") = 0 := by omega
    intro req hreq
    exact ⟨by simpa using List.countP_eq_zero.mp hcount req hreq, hversion req hreq⟩
  · intro hrs
    cases hpeer : doPeer list (fun _ => none) [] (rs.map .ok) with
    | error stop =>
      obtain ⟨req, hreq, hnot⟩ := hends.of_error hpeer
      exact absurd (hrs req hreq).2 hnot
    | ok sent =>
      obtain ⟨rfl, -⟩ := hends.of_ok hpeer
      refine ⟨_, rfl, ?_⟩
      clear hpeer hends
      induction rs with
      | nil => exact .nil
      | cons req rs ih =>
        have hreq := (hrs req List.mem_cons_self).1
        rw [List.flatMap_cons, replies, if_pos hreq]
        refine .cons ?_ (ih fun r hr => hrs r (List.mem_cons_of_mem _ hr))
        rw [Answers, if_pos hreq]
        exact ⟨rfl, rfl⟩

/-- Two requests for `/`: four responses, and the one in the second place, which the client takes
for the answer to its second request, is the list. -/
theorem answered_twice :
    (doPeer [91, 93] (fun _ => none) [] [.ok ⟨text "/", 11⟩, .ok ⟨text "/", 11⟩]).map
        (List.map Response.status) = .ok [404, 200, 404, 200] ∧
    ¬ AnswersEach [91, 93] [⟨text "/", 11⟩, ⟨text "/", 11⟩] := by
  refine ⟨by decide, ?_⟩
  rintro ⟨sent, hsent, hall⟩
  obtain ⟨rfl, -⟩ := (doPeer_all [91, 93] [⟨text "/", 11⟩, ⟨text "/", 11⟩]).of_ok hsent
  exact absurd hall.length_eq (by decide)

end Metcalfe.ValidatorSite
