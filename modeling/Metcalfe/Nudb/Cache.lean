import Mathlib.Data.List.AList
import Metcalfe.Nudb.Handle

/-!
# What a store keeps in memory

`detail/cache.hpp` keeps bucket blobs by the number of the bucket, `detail/pool.hpp` the values
that are inserted and not yet in the data file, in the order of their keys. A handle points into
the blob of its cache: what is done to the handle is done to the blob, which `Cache.store` says.

A cache is iterated in the order of a hash table, which is not specified; a pool in the order of
its keys, compared byte by byte.
-/

namespace Metcalfe.Nudb

open BigEndian

abbrev Cache := AList fun _ : Nat => Bytes

namespace Cache

def find (blockSize : Nat) (c : Cache) (n : Nat) : Option Bucket :=
  (c.lookup n).map (Bucket.ofBlob blockSize)

/-- A blob that is there is not replaced. -/
def emplace (c : Cache) (n : Nat) (p : Bytes) : Cache := if n ∈ c then c else AList.insert n p c

/-- Creates an empty bucket. -/
def create (blockSize : Nat) (c : Cache) (n : Nat) : Bucket × Cache :=
  (Bucket.empty blockSize, c.emplace n (Bucket.empty blockSize).p)

/-- Inserts a copy of a bucket; only the entries that are there are copied. -/
def insert (blockSize : Nat) (c : Cache) (n : Nat) (b : Bucket) : Bucket × Cache :=
  let c := c.emplace n b.write
  (Bucket.ofBlob blockSize ((c.lookup n).getD []), c)

/-- The blob of a handle that was changed in place. -/
def store (c : Cache) (n : Nat) (b : Bucket) : Cache := AList.insert n b.p c

/-- An order in which the buckets of a cache are visited. -/
structure Order where
  visit : Cache → List (Nat × Bytes)
  perm : ∀ c, (visit c).Perm (c.entries.map fun e => (e.1, e.2))

/-- The order of the list that represents a cache. -/
def listed : Order := ⟨fun c => c.entries.map fun e => (e.1, e.2), fun _ => .refl _⟩

variable {c : Cache} {n m : Nat} {p : Bytes}

theorem create_of_notMem {blockSize : Nat} (h : n ∉ c) : c.create blockSize n =
    (Bucket.empty blockSize, AList.insert n (Bucket.empty blockSize).p c) := by
  rw [create, emplace, if_neg h]

theorem insert_of_notMem {blockSize : Nat} {b : Bucket} (h : n ∉ c) : c.insert blockSize n b =
    (Bucket.ofBlob blockSize b.write, AList.insert n b.write c) := by
  rw [insert, emplace, if_neg h, AList.lookup_insert]
  rfl

theorem Order.mem_visit {o : Order} : (n, p) ∈ o.visit c ↔ c.lookup n = some p := by
  rw [(o.perm c).mem_iff, ← Option.mem_def, AList.mem_lookup_iff]
  simp

theorem Order.nodup_visit (o : Order) (c : Cache) : ((o.visit c).map Prod.fst).Nodup := by
  rw [((o.perm c).map Prod.fst).nodup_iff, List.map_map]
  exact c.keys_nodup

end Cache

/-! ## Values that are not yet in the data file -/

/-- `pool_t::value_type`; the size is the length of the data. -/
structure Value where
  hash : Nat
  key : Bytes
  data : Bytes
  deriving DecidableEq, Repr

/-- `memcmp(..) <= 0`. -/
def Value.le (a b : Value) : Prop := a.key.map UInt8.toNat ≤ b.key.map UInt8.toNat

instance : DecidableRel Value.le := fun a b =>
  inferInstanceAs (Decidable (a.key.map UInt8.toNat ≤ b.key.map UInt8.toNat))

instance : Std.Total Value.le := ⟨fun _ _ => le_total _ _⟩

instance : IsTrans Value Value.le := ⟨fun _ _ _ => le_trans⟩

structure Pool where
  values : List Value
  sorted : values.Pairwise Value.le
  nodup : (values.map Value.key).Nodup

namespace Pool

def empty : Pool := ⟨[], List.Pairwise.nil, List.nodup_nil⟩

def find (p : Pool) (key : Bytes) : Option Value := p.values.find? fun v => v.key = key

/-- Inserts a value; its key must not be there. -/
def insert (p : Pool) (hash : Nat) (key data : Bytes) : Except Stop Pool :=
  if h : key ∈ p.values.map Value.key then .error .assertion
  else .ok
    { values := p.values.orderedInsert Value.le ⟨hash, key, data⟩
      sorted := p.sorted.orderedInsert _ _
      nodup := by
        rw [((List.perm_orderedInsert Value.le _ _).map Value.key).nodup_iff, List.map_cons]
        exact List.nodup_cons.mpr ⟨h, p.nodup⟩ }

theorem insert_eq_ok {p : Pool} {hash : Nat} {key data : Bytes}
    (h : key ∉ p.values.map Value.key) :
    ∃ p', p.insert hash key data = .ok p' ∧ p'.values.Perm (⟨hash, key, data⟩ :: p.values) := by
  rw [insert, dif_neg h]
  exact ⟨_, rfl, List.perm_orderedInsert _ _ _⟩

end Pool

end Metcalfe.Nudb
