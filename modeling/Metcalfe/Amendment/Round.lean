import Metcalfe.Library.Outcome
import Metcalfe.Library.Signed

/-!
# Pretend consensus rounds

`doRound` of `AmendmentTable_test.cpp` builds a validation for each validator, asks the table for
the actions of the round and applies them to the enabled amendments and the majorities. The table
is not a part of the repository: a round has whatever `doValidation` and `doVoting` it has at that
time.

An amendment of weight `w` is to get the share `w / 256` of the votes. The loop compares
`256 * i < n * w` for the validators `i = 1, ..., n`, and so it leaves out the last vote whenever
`n * w` is a multiple of 256: nobody ever votes last, not even at weight 256. `castsShare_iff` says
when the share is the one asked for.
-/

namespace Metcalfe.Amendment

open Outcome Signed

/-- How `doRound` ends early. -/
inductive Failure where
  | thrown (what : String)
  /-- An overflow of an `int`. -/
  | undefined
deriving DecidableEq

/-- The result of an operation on an `int`. -/
def arith (x : Int) : Except Failure Int := if Fits x then pure x else throw .undefined

/-- A validation of the zero hash, with the fields that `doRound` sets. -/
structure STValidation (Hash Key : Type) where
  signTime : Nat
  key : Key
  full : Bool
  /-- `sfAmendments`, when it is set. -/
  amendments : Option (List Hash)
  trusted : Bool
deriving DecidableEq

/-- The two collections that rounds update. -/
structure Amendments (Hash : Type) where
  enabled : Finset Hash
  majority : Hash → Option Nat

/-- The table as a round finds it. An action is a hash and a code. -/
structure AmendmentTable (Hash Key : Type) where
  doValidation : Finset Hash → List Hash
  doVoting : Nat → Finset Hash → (Hash → Option Nat) → List (Key × STValidation Hash Key) →
    List (Hash × UInt32)

/-- The labels of a `switch` are distinct, and 0 is one of them. -/
structure Flags where
  tfGotMajority : UInt32
  tfLostMajority : UInt32
  got_ne_zero : tfGotMajority ≠ 0
  lost_ne_zero : tfLostMajority ≠ 0
  got_ne_lost : tfGotMajority ≠ tfLostMajority

/-- `weekTime`: the seconds of the weeks. -/
def weekTime (week : Nat) : Nat := week * 604800

section Validations

variable {Hash Key : Type} [DecidableEq Hash] [DecidableEq Key]

/-- `(256 * i) < (validators.size() * w)`: both sides are compared as `size_t`. -/
def votesYes (n : Nat) (i w : Int) : Except Failure Bool := do
  let scaled ← arith (256 * i)
  pure (decide ((scaled % 2 ^ 64).toNat < n * (w % 2 ^ 64).toNat % 2 ^ 64))

/-- The field of the validator with the count `i`. -/
def castVotes (n : Nat) (i : Int) (votes : List (Hash × Int)) : Except Failure (List Hash) :=
  votes.foldlM (fun field vote => do
    if ← votesYes n i vote.2 then pure (field ++ [vote.1]) else pure field) []

/-- `validations [val] = v`. -/
def assign (validations : List (Key × STValidation Hash Key)) (v : STValidation Hash Key) :
    List (Key × STValidation Hash Key) :=
  if validations.any fun e => e.1 = v.key then
    validations.map fun e => if e.1 = v.key then (e.1, v) else e
  else
    validations ++ [(v.key, v)]

/-- The validation with the votes of `field`: an empty field is not set. -/
def STValidation.make (roundTime : Nat) (key : Key) (field : List Hash) : STValidation Hash Key :=
  ⟨roundTime, key, true, if field.isEmpty then none else some field, true⟩

/-- One turn of the loop over the validators: the count and the validations so far. -/
def addValidation (roundTime n : Nat) (votes : List (Hash × Int))
    (s : Int × List (Key × STValidation Hash Key)) (val : Key) :
    Except Failure (Int × List (Key × STValidation Hash Key)) := do
  let i ← arith (s.1 + 1)
  let field ← castVotes n i votes
  pure (i, assign s.2 (.make roundTime val field))

def buildValidations (roundTime : Nat) (validators : List Key) (votes : List (Hash × Int)) :
    Except Failure (List (Key × STValidation Hash Key)) := do
  let s ← validators.foldlM (addValidation roundTime validators.length votes) (0, [])
  pure s.2

/-- Does the validation vote for the amendment? -/
def STValidation.contains (v : STValidation Hash Key) (hash : Hash) : Bool :=
  (v.amendments.getD []).contains hash

/-- The number of validations that contain the amendment. -/
def votesFor (validations : List (Key × STValidation Hash Key)) (hash : Hash) : Nat :=
  validations.countP fun e => e.2.contains hash

end Validations

section Round

variable {Hash Key : Type} [DecidableEq Hash] [DecidableEq Key]

namespace Amendments

/-- `enabled.insert (hash); majority.erase (hash)`. -/
def enable (s : Amendments Hash) (hash : Hash) : Amendments Hash :=
  ⟨insert hash s.enabled, Function.update s.majority hash none⟩

/-- `majority[hash] = roundTime`. -/
def gain (s : Amendments Hash) (hash : Hash) (roundTime : Nat) : Amendments Hash :=
  { s with majority := Function.update s.majority hash (some roundTime) }

/-- `majority.erase (hash)`. -/
def lose (s : Amendments Hash) (hash : Hash) : Amendments Hash :=
  { s with majority := Function.update s.majority hash none }

end Amendments

/-- The `switch` of `doRound`. -/
def applyAction (flags : Flags) (roundTime : Nat) (s : Amendments Hash)
    (action : Hash × UInt32) : Except Failure (Amendments Hash) :=
  let hash := action.1
  if action.2 = 0 then
    if hash ∈ s.enabled then
      throw (.thrown "enabling already enabled")
    else if s.majority hash = none then
      throw (.thrown "enabling without majority")
    else
      pure (s.enable hash)
  else if action.2 = flags.tfGotMajority then
    if s.majority hash ≠ none then
      throw (.thrown "got majority while having majority")
    else
      pure (s.gain hash roundTime)
  else if action.2 = flags.tfLostMajority then
    if s.majority hash = none then
      throw (.thrown "lost majority without majority")
    else
      pure (s.lose hash)
  else
    throw (.thrown "unknown action")

/-- The arguments of a call of `doRound` but for the collections that it updates. -/
structure Call (Hash Key : Type) where
  table : AmendmentTable Hash Key
  week : Nat
  validators : List Key
  votes : List (Hash × Int)

/-- The actions that the table returns in the round. -/
def Call.actions (call : Call Hash Key) (s : Amendments Hash) :
    Except Failure (List (Hash × UInt32)) := do
  let roundTime := weekTime call.week
  let validations ← buildValidations roundTime call.validators call.votes
  pure (call.table.doVoting roundTime s.enabled s.majority validations)

/-- The result is `ourVotes` and the collections after the round. -/
def doRound (flags : Flags) (s : Amendments Hash) (call : Call Hash Key) :
    Except Failure (List Hash × Amendments Hash) := do
  let actions ← call.actions s
  let ourVotes := call.table.doValidation s.enabled
  let s' ← actions.foldlM (applyAction flags (weekTime call.week)) s
  pure (ourVotes, s')

end Round

/-! ## The share of the votes -/

section Share

variable {Hash Key : Type} {roundTime n : Nat} {votes : List (Hash × Int)}

/-- The number of positive counts `i` with `256 * i < n * w`. -/
def quota (n : Nat) (w : Int) : Nat := (n * w.toNat - 1) / 256

/-- The weights are in the scale of 256. -/
def Weighted (votes : List (Hash × Int)) : Prop := ∀ vote ∈ votes, 0 ≤ vote.2 ∧ vote.2 ≤ 256

/-- The counts up to `n`, and their scaled values when there is something to compare, fit an
`int`. -/
def CountsFit (n : Nat) (votes : List (Hash × Int)) : Prop :=
  n ≤ 2147483647 ∧ (votes ≠ [] → n ≤ 8388607)

theorem arith_of_fits {x : Int} (h : Fits x) : arith x = .ok x := if_pos h

theorem fits_of_arith {x y : Int} (h : arith x = .ok y) : Fits x ∧ y = x := by
  unfold arith at h
  split at h
  · cases h
    exact ⟨‹_›, rfl⟩
  · cases h

theorem votesYes_eq {i : Nat} {w : Int} (hi : 0 < i) (hin : i ≤ n) (hn : n ≤ 8388607)
    (hw : 0 ≤ w ∧ w ≤ 256) : votesYes n i w = .ok (decide (i ≤ quota n w)) := by
  have hnw : n * w.toNat ≤ 8388607 * 256 := Nat.mul_le_mul hn (by omega)
  have hscaled : ((256 * (i : Int)) % 2 ^ 64).toNat = 256 * i := by omega
  have hweight : (w % 2 ^ 64).toNat = w.toNat := by omega
  have hyes : votesYes n i w = .ok (decide
      (((256 * (i : Int)) % 2 ^ 64).toNat < n * (w % 2 ^ 64).toNat % 2 ^ 64)) := by
    unfold votesYes
    rw [arith_of_fits (by unfold Fits; omega)]
    rfl
  rw [hyes, hscaled, hweight, Nat.mod_eq_of_lt (by omega)]
  unfold quota
  generalize n * w.toNat = total
  exact congrArg Except.ok (decide_eq_decide.mpr (by omega))

theorem castVotes_eq {i : Nat} (hi : 0 < i) (hin : i ≤ n) (hfit : CountsFit n votes)
    (hw : Weighted votes) :
    castVotes n i votes =
      .ok ((votes.filter fun vote => decide (i ≤ quota n vote.2)).map Prod.fst) := by
  suffices h : ∀ field, votes.foldlM (fun field vote => do
      if ← votesYes n i vote.2 then pure (field ++ [vote.1]) else pure field) field =
        (.ok (field ++ (votes.filter fun vote => decide (i ≤ quota n vote.2)).map Prod.fst) :
          Except Failure (List Hash)) by
    simpa [castVotes] using h []
  obtain ⟨-, hn⟩ := hfit
  induction votes with
  | nil => simp [pure, Except.pure]
  | cons vote votes ih =>
    intro field
    obtain ⟨hvote, hvotes⟩ := List.forall_mem_cons.mp hw
    have hn' := hn (by simp)
    rw [List.foldlM_cons, votesYes_eq hi hin hn' hvote]
    by_cases hyes : i ≤ quota n vote.2
    · simpa [hyes, bind, Except.bind, pure, Except.pure] using
        ih hvotes (fun _ => hn') (field ++ [vote.1])
    · simpa [hyes, bind, Except.bind, pure, Except.pure] using
        ih hvotes (fun _ => hn') field

/-- A vote that is cast was compared. -/
theorem fits_of_castVotes {i : Int} {field : List Hash} (h : castVotes n i votes = .ok field)
    (hvotes : votes ≠ []) : Fits (256 * i) := by
  obtain ⟨vote, rest, rfl⟩ := List.exists_cons_of_ne_nil hvotes
  unfold castVotes votesYes at h
  rw [List.foldlM_cons] at h
  by_contra hfits
  simp only [arith, hfits, if_false] at h
  cases h

theorem assign_of_new [DecidableEq Key] {validations : List (Key × STValidation Hash Key)}
    {v : STValidation Hash Key} (h : v.key ∉ validations.map Prod.fst) :
    assign validations v = validations ++ [(v.key, v)] := by
  unfold assign
  rw [if_neg]
  simp only [List.any_eq_true, decide_eq_true_eq, not_exists, not_and]
  exact fun e he hkey => h (hkey ▸ List.mem_map_of_mem he)

variable [DecidableEq Hash]

theorem make_contains (key : Key) (field : List Hash) (hash : Hash) :
    (STValidation.make roundTime key field).contains hash = field.contains hash := by
  unfold STValidation.contains STValidation.make
  cases field <;> simp

/-- With distinct amendments the votes of a validator are decided one by one. -/
theorem contains_cast (hdistinct : (votes.map Prod.fst).Nodup) {vote : Hash × Int}
    (hvote : vote ∈ votes) (p : Int → Bool) :
    ((votes.filter fun v => p v.2).map Prod.fst).contains vote.1 = p vote.2 := by
  rw [Bool.eq_iff_iff, List.contains_iff_mem, List.mem_map]
  constructor
  · rintro ⟨v, hv, heq⟩
    obtain ⟨hmem, hp⟩ := List.mem_filter.mp hv
    rwa [List.inj_on_of_nodup_map hdistinct hmem hvote heq] at hp
  · exact fun hp => ⟨vote, List.mem_filter.mpr ⟨hvote, hp⟩, rfl⟩

variable [DecidableEq Key]

/-- The validation of the validator with the count `i`. -/
def validation (roundTime n : Nat) (votes : List (Hash × Int)) (i : Nat) (val : Key) :
    STValidation Hash Key :=
  .make roundTime val ((votes.filter fun vote => decide (i ≤ quota n vote.2)).map Prod.fst)

omit [DecidableEq Hash] in
theorem addValidation_eq (hfit : CountsFit n votes) (hw : Weighted votes) {i : Nat}
    (hi : i + 1 ≤ n) {acc : List (Key × STValidation Hash Key)} {val : Key}
    (hval : val ∉ acc.map Prod.fst) :
    addValidation roundTime n votes ((i : Int), acc) val =
      .ok (((i + 1 : Nat) : Int), acc ++ [(val, validation roundTime n votes (i + 1) val)]) := by
  have hcount : arith ((i : Int) + 1) = .ok ((i + 1 : Nat) : Int) := by
    have := hfit.1
    exact arith_of_fits (by unfold Fits; omega)
  have hassign : assign acc (validation roundTime n votes (i + 1) val) =
      acc ++ [(val, validation roundTime n votes (i + 1) val)] := assign_of_new hval
  refine bind_eq_ok.mpr ⟨_, hcount, bind_eq_ok.mpr ⟨_, castVotes_eq i.succ_pos hi hfit hw, ?_⟩⟩
  exact congrArg (fun acc' => Except.ok (((i + 1 : Nat) : Int), acc')) hassign

omit [DecidableEq Hash] in
/-- A turn that comes to its end has not overflowed. -/
theorem countsFit_of_addValidation {i : Nat} {acc : List (Key × STValidation Hash Key)} {val : Key}
    {s : Int × List (Key × STValidation Hash Key)}
    (h : addValidation roundTime n votes ((i : Int), acc) val = .ok s) :
    s.1 = ((i + 1 : Nat) : Int) ∧ CountsFit (i + 1) votes := by
  obtain ⟨i', hcount, h⟩ := bind_eq_ok.mp h
  obtain ⟨field, hcast, h⟩ := bind_eq_ok.mp h
  obtain ⟨hfits, rfl⟩ := fits_of_arith hcount
  cases h
  unfold Fits at hfits
  refine ⟨rfl, by dsimp only at hfits; omega, fun hvotes => ?_⟩
  have hscaled := fits_of_castVotes hcast hvotes
  unfold Fits at hscaled
  dsimp only at hscaled
  omega

/-- The loop over the validators: from the count `i` on, each amendment gets the votes of the counts
up to its quota. -/
theorem addValidations_votesFor (hfit : CountsFit n votes) (hw : Weighted votes)
    (hdistinct : (votes.map Prod.fst).Nodup) {vals : List Key} {i : Nat}
    {acc : List (Key × STValidation Hash Key)} (hi : i + vals.length ≤ n) (hvals : vals.Nodup)
    (hnew : ∀ val ∈ vals, val ∉ acc.map Prod.fst) :
    ∃ s, vals.foldlM (addValidation roundTime n votes) ((i : Int), acc) = .ok s ∧
      ∀ vote ∈ votes, votesFor s.2 vote.1 = votesFor acc vote.1 +
        (min (i + vals.length) (quota n vote.2) - min i (quota n vote.2)) := by
  induction vals generalizing i acc with
  | nil => exact ⟨_, rfl, by simp⟩
  | cons val vals ih =>
    simp only [List.length_cons] at hi ⊢
    obtain ⟨hval, hvals'⟩ := List.nodup_cons.mp hvals
    obtain ⟨hnew₀, hnew'⟩ := List.forall_mem_cons.mp hnew
    have hnext : ∀ val' ∈ vals,
        val' ∉ (acc ++ [(val, validation roundTime n votes (i + 1) val)]).map Prod.fst := by
      intro val' hval'
      simp only [List.map_append, List.map_cons, List.map_nil, List.mem_append,
        List.mem_singleton, not_or]
      exact ⟨hnew' val' hval', fun heq => hval (heq ▸ hval')⟩
    obtain ⟨s, hs, hvotes⟩ := ih (i := i + 1) (by omega) hvals' hnext
    refine ⟨s, ?_, fun vote hvote => ?_⟩
    · rw [List.foldlM_cons, bind_eq_ok]
      exact ⟨_, addValidation_eq hfit hw (by omega) hnew₀, hs⟩
    have hcontains : (validation roundTime n votes (i + 1) val).contains vote.1 =
        decide (i + 1 ≤ quota n vote.2) := by
      rw [validation, make_contains]
      exact contains_cast hdistinct hvote fun w => decide (i + 1 ≤ quota n w)
    rw [hvotes vote hvote, votesFor, List.countP_append, List.countP_singleton, hcontains,
      ← votesFor]
    by_cases hle : i + 1 ≤ quota n vote.2
    · simp only [hle, decide_true, if_true]
      omega
    · simp only [hle, decide_false, Bool.false_eq_true, if_false]
      omega

omit [DecidableEq Hash] in
theorem countsFit_of_addValidations {vals : List Key}
    {s s' : Int × List (Key × STValidation Hash Key)} {i : Nat} (hs : s.1 = i)
    (h : vals.foldlM (addValidation roundTime n votes) s = .ok s') (hi : CountsFit i votes) :
    CountsFit (i + vals.length) votes := by
  induction vals generalizing i s with
  | nil => exact hi
  | cons val vals ih =>
    rw [List.foldlM_cons, bind_eq_ok] at h
    obtain ⟨s₁, hturn, hrest⟩ := h
    obtain ⟨_, acc⟩ := s
    cases hs
    obtain ⟨hs₁, hnext⟩ := countsFit_of_addValidation hturn
    have hall := ih hs₁ hrest hnext
    rwa [Nat.add_right_comm] at hall

/-- The requested share: each amendment gets the votes of `n * w / 256` validators, so at weight 256
of all of them, and with more weight not fewer. -/
def CastsShare (roundTime : Nat) (validators : List Key) (votes : List (Hash × Int)) : Prop :=
  ∃ validations, buildValidations roundTime validators votes = .ok validations ∧
    (∀ vote ∈ votes,
      (votesFor validations vote.1 : Int) = validators.length * vote.2 / 256) ∧
    (∀ vote ∈ votes, vote.2 = 256 → votesFor validations vote.1 = validators.length) ∧
    (∀ vote ∈ votes, ∀ vote' ∈ votes, vote.2 ≤ vote'.2 →
      votesFor validations vote.1 ≤ votesFor validations vote'.1)

/-- The number of votes that a round casts for each amendment. -/
theorem votesFor_buildValidations (roundTime : Nat) {validators : List Key} (hvals : validators.Nodup)
    (hdistinct : (votes.map Prod.fst).Nodup) (hw : Weighted votes)
    (hfit : CountsFit validators.length votes) :
    ∃ validations, buildValidations roundTime validators votes = .ok validations ∧
      ∀ vote ∈ votes, votesFor validations vote.1 = quota validators.length vote.2 := by
  obtain ⟨s, hs, hvotes⟩ : ∃ s, validators.foldlM
      (addValidation roundTime validators.length votes) (((0 : Nat) : Int), []) = .ok s ∧ _ :=
    addValidations_votesFor hfit hw hdistinct (by omega) hvals (by simp)
  refine ⟨s.2, bind_eq_ok.mpr ⟨s, hs, rfl⟩, fun vote hvote => ?_⟩
  have hquota : quota validators.length vote.2 ≤ validators.length := by
    have hle : validators.length * vote.2.toNat ≤ validators.length * 256 :=
      Nat.mul_le_mul le_rfl (by have := (hw vote hvote).2; omega)
    unfold quota
    omega
  rw [hvotes vote hvote]
  simp only [votesFor, List.countP_nil]
  omega

omit [DecidableEq Hash] in
theorem quota_eq_iff {w : Int} (hw : 0 ≤ w) :
    (quota n w : Int) = n * w / 256 ↔ ¬ (0 < n * w ∧ 256 ∣ n * w) := by
  obtain ⟨w, rfl⟩ := Int.eq_ofNat_of_zero_le hw
  unfold quota
  rw [Int.toNat_natCast, ← Nat.cast_mul]
  generalize n * w = total
  omega

theorem quota_mono {w w' : Int} (h : w ≤ w') : quota n w ≤ quota n w' :=
  Nat.div_le_div_right (Nat.sub_le_sub_right (Nat.mul_le_mul_left n (by omega)) 1)

/-- A round casts the share asked for just when no amendment has a positive multiple of 256 for its
`n * w` and the counts fit. -/
theorem castsShare_iff {validators : List Key} (hvals : validators.Nodup)
    (hdistinct : (votes.map Prod.fst).Nodup) (hw : Weighted votes) :
    CastsShare roundTime validators votes ↔
      CountsFit validators.length votes ∧
      ∀ vote ∈ votes, ¬ (0 < validators.length * vote.2 ∧ 256 ∣ validators.length * vote.2) := by
  constructor
  · rintro ⟨validations, hbuild, hshare, -, -⟩
    obtain ⟨s, hs, -⟩ := bind_eq_ok.mp hbuild
    have hfit : CountsFit validators.length votes := by
      have := countsFit_of_addValidations (i := 0) rfl hs ⟨by omega, fun _ => by omega⟩
      rwa [Nat.zero_add] at this
    obtain ⟨validations', hbuild', hquota⟩ :=
      votesFor_buildValidations roundTime hvals hdistinct hw hfit
    cases hbuild.symm.trans hbuild'
    refine ⟨hfit, fun vote hvote => (quota_eq_iff (hw vote hvote).1).mp ?_⟩
    rw [← hquota vote hvote]
    exact hshare vote hvote
  · rintro ⟨hfit, hmultiple⟩
    obtain ⟨validations, hbuild, hquota⟩ :=
      votesFor_buildValidations roundTime hvals hdistinct hw hfit
    have hshare : ∀ vote ∈ votes,
        (votesFor validations vote.1 : Int) = validators.length * vote.2 / 256 := by
      intro vote hvote
      rw [hquota vote hvote]
      exact (quota_eq_iff (hw vote hvote).1).mpr (hmultiple vote hvote)
    refine ⟨validations, hbuild, hshare, fun vote hvote hfull => ?_, ?_⟩
    · have hvote' := hshare vote hvote
      rw [hfull, Int.mul_ediv_cancel _ (by omega)] at hvote'
      exact_mod_cast hvote'
    · intro vote hvote vote' hvote' hle
      rw [hquota vote hvote, hquota vote' hvote']
      exact quota_mono hle

/-- Five validators, one amendment of half the weight and one of no weight. -/
theorem castsShare_iff_half : [1, 2, 3, 4, 5].Nodup ∧
    CastsShare 0 [1, 2, 3, 4, 5] [("half", 128), ("none", 0)] :=
  ⟨by decide, (castsShare_iff (by decide) (by decide) (by simp [Weighted])).mpr
    ⟨⟨by decide, fun _ => by decide⟩, by decide⟩⟩

/-- Two validators at weight 256: one of them votes. -/
theorem castsShare_full_weight :
    (buildValidations 0 [1, 2] [("everyone", 256)]).map (votesFor · "everyone") = .ok 1 ∧
    ¬ CastsShare 0 [1, 2] [("everyone", 256)] := by
  have hone : (buildValidations 0 [1, 2] [("everyone", 256)]).map (votesFor · "everyone") =
      .ok 1 := by decide
  refine ⟨hone, fun ⟨validations, hbuild, hshare, _⟩ => ?_⟩
  rw [hbuild] at hone
  have hcount : votesFor validations "everyone" = 1 := Except.ok.inj hone
  have hvote := hshare ("everyone", 256) (List.mem_singleton_self _)
  rw [hcount] at hvote
  simp at hvote

end Share

end Metcalfe.Amendment
