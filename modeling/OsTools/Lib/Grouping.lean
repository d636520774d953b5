import Mathlib.Data.List.Dedup
import Mathlib.Data.List.FinRange
import OsTools.Lib.Except
/-!
# OsTools.Lib.Grouping

Grouping emitted pairs by their keys, as between the two halves of a map-reduce job. Every key goes
to one of a number of buckets and is met there once, with all of its values. The assignment to the
buckets, the order of the keys in a bucket and the order of the values of a key are all open.

A `Grouping` is any such assignment, as a structure whose fields say what it must satisfy.
What holds for every grouping holds for every hash function, every number of buckets and
every interleaving of the workers; `ofBucket` is the one that a hash function makes, so that
there always is one.
-/

namespace OsTools

variable {K V W E : Type} [DecidableEq K]

/-- The values emitted for a key, in their order. -/
def valuesOf (emitted : List (K × V)) (k : K) : List V :=
  (emitted.filter fun p => p.1 = k).map Prod.snd

/-- The keys in each of the buckets, and the values that each key comes with. -/
structure Grouping (emitted : List (K × V)) where
  buckets : Nat
  bucket : K → Fin buckets
  keys : Fin buckets → List K
  values : K → List V
  keys_nodup : ∀ r, (keys r).Nodup
  mem_keys : ∀ r k, k ∈ keys r ↔ k ∈ emitted.map Prod.fst ∧ bucket k = r
  values_perm : ∀ k, (values k).Perm (valuesOf emitted k)

namespace Grouping

variable {emitted : List (K × V)}

/-- The grouping that keeps the order of the pairs in every bucket. -/
def ofBucket (emitted : List (K × V)) (buckets : Nat) (bucket : K → Fin buckets) :
    Grouping emitted where
  buckets := buckets
  bucket := bucket
  keys := fun r => (emitted.map Prod.fst).dedup.filter fun k => bucket k = r
  values := valuesOf emitted
  keys_nodup := fun _ => (List.nodup_dedup _).filter _
  mem_keys := fun r k => by simp
  values_perm := fun _ => .refl _

/-- The keys, bucket after bucket. -/
def allKeys (g : Grouping emitted) : List K := (List.finRange g.buckets).flatMap g.keys

/-- The reduced pairs, bucket after bucket. -/
def reduceAll (g : Grouping emitted) (reduce : K → List V → Except E W) :
    Except E (List (K × W)) :=
  g.allKeys.mapM fun k => do
    let w ← reduce k (g.values k)
    .ok (k, w)

theorem mem_allKeys (g : Grouping emitted) (k : K) :
    k ∈ g.allKeys ↔ k ∈ emitted.map Prod.fst := by
  unfold allKeys
  rw [List.mem_flatMap]
  constructor
  · rintro ⟨r, -, hk⟩
    exact ((g.mem_keys r k).mp hk).1
  · intro hk
    exact ⟨g.bucket k, List.mem_finRange _, (g.mem_keys _ k).mpr ⟨hk, rfl⟩⟩

/-- No key is in two buckets, nor twice in one. -/
theorem allKeys_nodup (g : Grouping emitted) : g.allKeys.Nodup := by
  unfold allKeys
  rw [List.nodup_flatMap]
  refine ⟨fun r _ => g.keys_nodup r, (List.nodup_finRange _).imp fun hne => ?_⟩
  intro k hk hk'
  exact hne (((g.mem_keys _ k).mp hk).2.symm.trans ((g.mem_keys _ k).mp hk').2)

/-- Every emitted key is reduced once. -/
theorem allKeys_perm (g : Grouping emitted) : g.allKeys.Perm (emitted.map Prod.fst).dedup := by
  refine (List.perm_ext_iff_of_nodup g.allKeys_nodup (List.nodup_dedup _)).mpr fun k => ?_
  rw [List.mem_dedup]
  exact g.mem_allKeys k

/-- A grouping of which every key is reduced without an error. -/
theorem reduceAll_ok (g : Grouping emitted) {reduce : K → List V → Except E W} {f : K → W}
    (h : ∀ k ∈ emitted.map Prod.fst, reduce k (g.values k) = .ok (f k)) :
    g.reduceAll reduce = .ok (g.allKeys.map fun k => (k, f k)) := by
  refine mapM_ok fun k hk => ?_
  rw [h k ((g.mem_allKeys k).mp hk)]
  rfl

end Grouping

end OsTools
