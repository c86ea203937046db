import Metcalfe.Import.Lookup

/-!
# Partial copies

A run reports what goes wrong with the files, the codec and the keys: it then throws or aborts
the suite. It does not ask the iterator why it stopped. `Valid()` is false at the end of the
database and after an error alike, and the loop ends normally in both cases: an iterator that
stops early leaves a database with the records read so far (`partial_copy_reported_complete`).
That is the only way to a partial copy (`complete_iff`).
-/

namespace Metcalfe.Import

open BigEndian Nudb Outcome

/-- A source database: the records in the order of their keys. -/
structure Source where
  records : List Record
  distinct : (records.map Prod.fst).Nodup

/-- The iterator over the source that stops after `stop` records; its status is OK only at the
end. -/
def Source.iterate (src : Source) (stop : Nat) : Iterator where
  records := src.records.take stop
  ok := decide (src.records.length ≤ stop)

/-- The loop has no reason to refuse the record: the key has 32 bytes and the codec gives the
value back. -/
def Accepts (codec : Codec) (r : Record) : Prop :=
  r.1.length = 32 ∧ ∃ out, codec.compress (codec.filterInner r.2) = .ok out ∧
    codec.decompress out = .ok (codec.filterInner r.2)

/-- The data file holds the record of every key of the source, in order, and NuDB finds them,
as long as the offsets are in range. -/
structure Copied (env : Env) (records : List Record) (out : Imported) : Prop where
  data : out.dat.take out.dfSize = dataSection env (records.map (stored env))
  found : env.asserts = true ∨ out.dat.length < 2 ^ 48 → records ≠ [] →
    ∃ st, Store.open_ env.hasher out.dat out.key = .ok st ∧
      ∀ r ∈ records, ∃ data, env.codec.compress (env.codec.filterInner r.2) = .ok data ∧
        st.fetch r.1 = .ok data

variable {env : Env} {it : Iterator} {out : Imported} {records : List Record}

theorem accepts_iff {r : Record} : Accepts env.codec r ↔ ∃ out, encodeValue env r = .ok out := by
  constructor
  · intro h
    obtain ⟨hkey, out, hcompress, hdecompress⟩ := h
    exact ⟨out, encodeValue_eq_ok_iff.mpr ⟨hkey, hcompress, hdecompress⟩⟩
  · intro h
    obtain ⟨out, hout⟩ := h
    obtain ⟨hkey, hcompress, hdecompress⟩ := encodeValue_eq_ok_iff.mp hout
    exact ⟨hkey, out, hcompress, hdecompress⟩

/-- The same run without failures of the files and without assertions. -/
def Env.calm (env : Env) : Env :=
  { env with
    bufferSize := 0
    asserts := false
    datFaults := fun _ => none
    keyFaults := fun _ => none }

/-- Where nothing fails, the run ends normally. -/
theorem run_ok (env : Env) (it : Iterator) (hdat : ∀ k, env.datFaults k = none)
    (hkey : ∀ k, env.keyFaults k = none)
    (hasserts : env.asserts = false) (haccept : ∀ r ∈ it.records, Accepts env.codec r) :
    ∃ out, run env it = .ok out := by
  have hends : Ends (run env it) (Laid env it.records) (RunFails env it) := run_ends it
  cases hrun : run env it with
  | ok out => exact ⟨out, rfl⟩
  | error s =>
    exfalso
    rcases hends.of_error hrun with hfail | ⟨r, hr, hrefused⟩
    · rcases hfail with ⟨k, e, hk, -⟩ | ⟨k, e, hk, -⟩ | ⟨-, hassert⟩
      · rw [hdat k] at hk
        cases hk
      · rw [hkey k] at hk
        cases hk
      · rw [hasserts] at hassert
        cases hassert
    · obtain ⟨out, hout⟩ := accepts_iff.mp (haccept r hr)
      rw [hout] at hrefused
      cases hrefused

theorem Laid.take_dfSize (h : Laid env records out) :
    out.dat.take out.dfSize = dataSection env (records.map (stored env)) := by
  rw [h.dfSize]
  exact (List.prefix_iff_eq_take.mp h.grown).symm

theorem Laid.copied (h : Laid env records out) (hkeys : (records.map Prod.fst).Nodup) :
    Copied env records out := by
  refine ⟨h.take_dfSize, fun hfits hne => ⟨_, h.open_ hne, fun r hr => ?_⟩⟩
  exact ⟨_, (encodeValue_eq_ok_iff.mp (h.accepted r hr)).2.1, h.fetch_of_mem hne hfits hkeys hr⟩

/-- A shorter list of records makes a shorter data section. -/
theorem length_dataSection_take_lt (env : Env) {stop : Nat} (h : stop < records.length) :
    (dataSection env ((records.take stop).map (stored env))).length <
      (dataSection env (records.map (stored env))).length := by
  have hsplit : records = records.take stop ++ records.drop stop := by simp
  have hrest : 0 < (records.drop stop).length := by
    rw [List.length_drop]
    omega
  have hle := length_le_flatMap ((records.drop stop).map (stored env))
  rw [List.length_map] at hle
  conv_rhs => rw [hsplit]
  rw [dataSection, dataSection, List.map_append, List.flatMap_append, List.length_append,
    List.length_append, List.length_append]
  omega

/-- Every run that ends normally has copied the source, whatever fails on the way, exactly when
the iterator does not stop early, or yields a record that makes every run fail. -/
theorem complete_iff (env : Env) (src : Source) (stop : Nat) :
    (∀ bufferSize asserts datFaults keyFaults out,
      run { env with bufferSize, asserts, datFaults, keyFaults } (src.iterate stop) = .ok out →
        Copied { env with bufferSize, asserts, datFaults, keyFaults } src.records out) ↔
      src.records.length ≤ stop ∨ ∃ r ∈ src.records.take stop, ¬ Accepts env.codec r := by
  constructor
  · intro hall
    by_contra hcond
    rw [not_or, not_le] at hcond
    obtain ⟨hstop, haccept⟩ := hcond
    have haccept' : ∀ r ∈ (src.iterate stop).records, Accepts env.codec r := by
      intro r hr
      by_contra hrefused
      exact haccept ⟨r, hr, hrefused⟩
    -- Nothing fails in this run, but it sees only the first records.
    obtain ⟨out, hrun⟩ := run_ok env.calm (src.iterate stop) (fun _ => rfl) (fun _ => rfl) rfl
      haccept'
    have hcopied := hall 0 false (fun _ => none) (fun _ => none) out hrun
    have hlaid := (run_ends _).of_ok hrun
    have hshort := length_dataSection_take_lt env.calm hstop
    have heq := hlaid.take_dfSize.symm.trans hcopied.data
    rw [show (src.iterate stop).records = src.records.take stop from rfl] at heq
    rw [heq] at hshort
    exact lt_irrefl _ hshort
  · intro hcond bufferSize asserts datFaults keyFaults out hrun
    have hlaid := (run_ends _).of_ok hrun
    rcases hcond with hstop | ⟨r, hr, hrefused⟩
    · have hrecords : (src.iterate stop).records = src.records := List.take_of_length_le hstop
      rw [hrecords] at hlaid
      exact hlaid.copied src.distinct
    · exfalso
      have hok := hlaid.accepted r hr
      exact hrefused (accepts_iff.mpr ⟨_, hok⟩)

/-- A source of two records, in which the iterator stops after the first. -/
def twoRecords : Source where
  records := [plainRecord 1, plainRecord 2]
  distinct := by decide

theorem partial_copy_reported_complete :
    ∃ out, run (quietEnv 128) (twoRecords.iterate 1) = .ok out ∧
      ¬ Copied (quietEnv 128) twoRecords.records out := by
  obtain ⟨out, hrun, hlen⟩ := exists_ok_of_any (x := run (quietEnv 128) (twoRecords.iterate 1))
    (p := fun out => decide ((out.dat.take out.dfSize).length ≠
      (dataSection (quietEnv 128) (twoRecords.records.map (stored (quietEnv 128)))).length))
    (by decide +kernel)
  refine ⟨out, hrun, fun hcopied => ?_⟩
  exact of_decide_eq_true hlen (congrArg List.length hcopied.data)

end Metcalfe.Import
