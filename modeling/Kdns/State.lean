import Kdns.Lib.Loops
import Kdns.Cache
import Kdns.Radix.Spelling

namespace Kdns

open ByteStream Dns Radix

structure State where
  tree : Tree
  cache : Cache

namespace State

def defaultCacheCapacity : ℤ := 10000

def new (hash : Cache.Key → UInt64) (cacheCapacity : ℤ) : State :=
  ⟨Tree.new, Cache.new hash (if cacheCapacity ≤ 0 then defaultCacheCapacity else cacheCapacity)⟩

def swap (s : State) (newTree : Tree) : State := ⟨newTree, s.cache.clear⟩

def update (s : State) (fn : Tree → Tree) : State := ⟨fn s.tree, s.cache.clear⟩

def clearCache (s : State) : State := { s with cache := s.cache.clear }

def toLowerASCII (s : Bytes) : Bytes :=
  if s.any fun b => 0x41 ≤ b ∧ b ≤ 0x5A then s.map fun b => if 0x41 ≤ b ∧ b ≤ 0x5A then b + 32 else b else s

theorem toLowerASCII_eq (s : Bytes) : toLowerASCII s = lower s := by
  unfold toLowerASCII
  split_ifs with h
  · rfl
  · have hid : ∀ b ∈ s, lowerByte b = b := by
      intro b hb
      rw [lowerByte, if_neg]
      intro hu
      exact h (List.any_eq_true.mpr ⟨b, hb, decide_eq_true hu⟩)
    exact ((List.map_congr_left hid).trans s.map_id).symm

def cacheKey (domain : Bytes) (qType : RRType) : Cache.Key := ⟨toLowerASCII domain, qType⟩

def cached (record : RRSet) : Result := ⟨.success, record, .empty, []⟩

def cacheable (res : Result) : Bool := res.rcode = .success ∧ res.hasAnswer

def remember (c : Cache) (key : Cache.Key) (res : Result) (now : ℤ) : Cache :=
  c.set key res.answer (res.answer.ttl.toNat * 1000000000) now

def resolve (s : State) (domain : Bytes) (qType : RRType) (read written : ℤ) : Result × State :=
  match s.cache.get (cacheKey domain qType) read with
  | (some record, cache) => (cached record, { s with cache := cache })
  | (none, cache) =>
    let res := s.tree.resolve domain qType
    (res, { s with cache := if cacheable res then remember cache (cacheKey domain qType) res written else cache })

def Current (t : Tree) (k : Cache.Key) (record : RRSet) : Prop :=
  ∀ domain, cacheKey domain k.type = k → t.resolve domain k.type = cached record

theorem current_of_cacheable {t : Tree} {domain : Bytes} {qType : RRType}
    (h : cacheable (t.resolve domain qType) = true) :
    Current t (cacheKey domain qType) (t.resolve domain qType).answer := by
  obtain ⟨-, ha⟩ := of_decide_eq_true h
  intro domain' hk
  have hname : lower domain = lower domain' := by
    rw [← toLowerASCII_eq, ← toLowerASCII_eq]
    exact (congrArg Cache.Key.name hk).symm
  rw [show (cacheKey domain qType).type = qType from rfl, t.resolve_respelled hname ha]
  exact t.resolve_positive domain qType ha

theorem resolve_spec {s : State} (h : s.cache.Holds (Current s.tree)) (domain : Bytes) (qType : RRType)
    (read written : ℤ) : (s.resolve domain qType read written).1 = s.tree.resolve domain qType ∧
      (s.resolve domain qType read written).2.tree = s.tree ∧
      (s.resolve domain qType read written).2.cache.Holds (Current s.tree) := by
  have hget := h.get (cacheKey domain qType) read
  have hright : ∀ v, (s.cache.get (cacheKey domain qType) read).1 = some v → Current s.tree (cacheKey domain qType) v :=
    fun _ hv => h.get_right hv
  unfold resolve
  generalize s.cache.get (cacheKey domain qType) read = r at hget hright ⊢
  obtain ⟨_ | record, cache⟩ := r
  · refine ⟨rfl, rfl, ?_⟩
    change Cache.Holds _ (if cacheable (s.tree.resolve domain qType) then _ else cache)
    split_ifs with hc
    · exact hget.set (current_of_cacheable hc) _ written
    · exact hget
  · exact ⟨(hright record rfl domain rfl).symm, rfl, hget⟩

inductive Call where
  | resolve (domain : Bytes) (qType : RRType) (read written : ℤ)
  | update (fn : Tree → Tree)
  | swap (newTree : Tree)
  | clearCache

def call (s : State) : Call → Option Result × State
  | .resolve domain qType read written =>
    let r := s.resolve domain qType read written
    (some r.1, r.2)
  | .update fn => (none, s.update fn)
  | .swap newTree => (none, s.swap newTree)
  | .clearCache => (none, s.clearCache)

def uncached (t : Tree) : Call → Option Result × Tree
  | .resolve domain qType _ _ => (some (t.resolve domain qType), t)
  | .update fn => (none, fn t)
  | .swap newTree => (none, newTree)
  | .clearCache => (none, t)

def Mirrors (s : State) (t : Tree) : Prop := s.tree = t ∧ s.cache.Holds (Current t)

theorem mirrors_of_holds {t : Tree} {c : Cache} (h : c.Holds (Current t)) : Mirrors ⟨t, c⟩ t := ⟨rfl, h⟩

theorem call_mirrors (s : State) (t : Tree) (c : Call) (h : Mirrors s t) :
    (s.call c).1 = (uncached t c).1 ∧ Mirrors (s.call c).2 (uncached t c).2 := by
  obtain ⟨rfl, h⟩ := h
  cases c with
  | resolve domain qType read written =>
    obtain ⟨hres, htree, hcache⟩ := resolve_spec h domain qType read written
    exact ⟨congrArg some hres, htree, hcache⟩
  | update fn => exact ⟨rfl, mirrors_of_holds (Cache.holds_clear s.cache)⟩
  | swap newTree => exact ⟨rfl, mirrors_of_holds (Cache.holds_clear s.cache)⟩
  | clearCache => exact ⟨rfl, mirrors_of_holds (Cache.holds_clear s.cache)⟩

theorem outputs_uncached (hash : Cache.Key → UInt64) (cacheCapacity : ℤ) (calls : List Call) :
    Transducer.outputs call (new hash cacheCapacity) calls = Transducer.outputs uncached Tree.new calls :=
  Transducer.outputs_eq call_mirrors ⟨rfl, Cache.holds_new _ _⟩ calls

end State

end Kdns
