import Kdns.Lib.Transaction
import Kdns.Update.Erased
import Kdns.Update.Order

namespace Kdns.Update

open ByteStream Dns Wire GoStrings Radix Wal Storage Transaction List

section Messages

variable {u : Unicode} {p : Bytes} {m : Bytes × List RawRR × List RawRR}

def requested (u : Unicode) (p : Bytes) : Option (Bytes × List RawRR × List RawRR) :=
  if p.length < headerSize then none
  else (sections u p).filter fun m =>
    (m.2.1.all fun pr => isInZone u pr.name m.1) && m.2.2.all fun up => isInZone u up.name m.1

theorem admitted_of_requested {σ : Type} {getter : Getter σ} {s : σ} (hm : requested u p = some m)
    (hzone : ¬(getter s m.1 = none ∧ m.1 ≠ [dotByte])) (hprereqs : checkPrerequisites getter s m.2.1 = .success) :
    admitted u getter s p = some m := by
  unfold requested at hm
  rw [admitted]
  split_ifs at hm ⊢
  obtain ⟨hsections, hall⟩ := Option.filter_eq_some_iff.mp hm
  refine Option.filter_eq_some_iff.mpr ⟨hsections, ?_⟩
  rw [Bool.and_eq_true] at hall
  rw [admits, hall.1, hall.2, decide_eq_false hzone, hprereqs]
  rfl

def modifiedDomains (updates : List RawRR) : List Bytes :=
  updates.foldl (fun domains up => domains.filter (fun domain => domain ≠ up.name) ++ [up.name]) []

theorem domainStates_domains {σ : Type} (getter : Getter σ) (s : σ) (updates : List RawRR) :
    (domainStates getter s updates).map Prod.fst = modifiedDomains updates := by
  induction updates using List.reverseRecOn with
  | nil => rfl
  | append_singleton updates up ih =>
    rw [domainStates_concat, modifiedDomains, foldl_append, ← modifiedDomains, ← ih, map_append, foldl_cons,
      foldl_nil, filter_map]
    rfl

theorem mem_modifiedDomains {updates : List RawRR} {name : Bytes} :
    name ∈ modifiedDomains updates ↔ name ∈ updates.map RawRR.name := by
  have hget := mem_domainStates (fun (_ : Unit) _ => none) () updates name
  rwa [domainStates_domains] at hget

end Messages

section Tree

theorem callFor_op (name : Bytes) (records : RRSets) :
    (callFor name records).op.domain = name ∧ (callFor name records).op.records = records := by
  unfold callFor
  split_ifs with h
  · exact ⟨rfl, h.symm⟩
  · exact ⟨rfl, rfl⟩

def treeStore : Store { t : Tree // t.Valid } Bytes (List Bytes) RRSets where
  get t name := recordsOf t.1 name
  put t name records := ⟨mutate t.1 (callFor name records).op, valid_mutate t.2 _⟩
  path := labels
  rel records records' := eraseSerials records = eraseSerials records'
  refl _ := rfl
  symm h := h.symm
  trans h h' := h.trans h'
  get_put t name records name' := by
    obtain ⟨hdomain, hrecords⟩ := callFor_op name records
    have hmutate := recordsOf_mutate t.2 (callFor name records).op name'
    rwa [hdomain, hrecords] at hmutate

def commits : UpsertDeleter Tree SubmitError where
  upsert t domain records := (mutate t (.upsert domain records), none)
  deleteDomain t domain := (mutate t (.delete domain), none)

theorem callAll_commits (calls : List StoreCall) (t : Tree) :
    callAll commits calls t = (mutateAll t (calls.map StoreCall.op), calls, none) := by
  induction calls generalizing t with
  | nil => rfl
  | cons call calls ih =>
    have hcall : commits.call t call = (mutate t call.op, none) := by cases call <;> rfl
    rw [callAll, hcall]
    dsimp only
    rw [ih]
    rfl

theorem writeAll_tree (f : Bytes → RRSets) (names : List Bytes) (t : { t : Tree // t.Valid }) :
    (writeAll treeStore f names t).1 = mutateAll t.1 ((names.map fun name => callFor name (f name)).map StoreCall.op) := by
  induction names generalizing t with
  | nil => rfl
  | cons name names ih => exact ih _

end Tree

section Client

inductive Lookup where
  | zone
  | prereq (pr : RawRR)
  | name (domain : Bytes)
  deriving DecidableEq, Repr

variable (mo : MapOrder) (m : Bytes × List RawRR × List RawRR)

def client : Client Lookup Bytes RRSets where
  reads := .zone :: (m.2.1.map .prereq ++ (m.2.2.map RawRR.name).eraseDups.map .name)
  key
    | .zone => m.1
    | .prereq pr => pr.name
    | .name domain => domain
  exact
    | .zone => false
    | .prereq pr => !decide pr.Blind
    | .name domain => m.2.2.any fun up => up.name = domain ∧ ¬up.Blind
  passes
    | .zone, records => records ≠ [] ∨ m.1 = [dotByte]
    | .prereq pr, records => evaluatePrerequisite (some records) pr = .success
    | .name _, _ => true
  writes := mo.order (modifiedDomains m.2.2)
  value seen domain := (m.2.2.filter fun up => up.name = domain).foldl applyUpdateOp (seen (.name domain))

variable {mo m}

theorem mem_writes {name : Bytes} : name ∈ (client mo m).writes ↔ name ∈ m.2.2.map RawRR.name := by
  rw [← mem_modifiedDomains]
  exact (mo.perm _).mem_iff

theorem read_of_write {name : Bytes} (h : name ∈ (client mo m).writes) : Lookup.name name ∈ (client mo m).reads :=
  mem_cons_of_mem _ (mem_append_right _ (mem_map_of_mem (mem_eraseDups.mpr (mem_writes.mp h))))

theorem client_sound : (client mo m).Sound treeStore where
  passes_agree r records records' hagree hpass := by
    obtain ⟨hrel, hexact⟩ := hagree
    cases r with
    | zone =>
      apply decide_eq_true
      refine (of_decide_eq_true hpass).imp_left fun hne hnil => hne ?_
      rw [← eraseSerials_eq_nil, hrel, eraseSerials_eq_nil]
      exact hnil
    | prereq pr =>
      by_cases hblind : pr.Blind
      · have hpass := of_decide_eq_true hpass
        apply decide_eq_true
        rwa [← evaluatePrerequisite_erased records' hblind, ← hrel, evaluatePrerequisite_erased records hblind]
      · rw [← hexact (by simp [client, hblind])]
        exact hpass
    | name domain => rfl
  value_eq seen seen' h name hname := by
    have hread := h _ (read_of_write hname)
    rw [client]
    dsimp only
    rw [hread]
  value_rel seen seen' h name hname := by
    obtain ⟨hrel, hexact⟩ := h _ (read_of_write hname)
    change eraseSerials _ = eraseSerials _
    rw [client]
    dsimp only
    by_cases hblind : ∀ up ∈ m.2.2.filter fun up => up.name = name, up.Blind
    · have hrel : eraseSerials (seen (.name name)) = eraseSerials (seen' (.name name)) := hrel
      rw [← foldl_applyUpdateOp_erased hblind, hrel, foldl_applyUpdateOp_erased hblind]
    · rw [hexact]
      rw [client]
      simpa [and_assoc] using hblind

variable {t : { t : Tree // t.Valid }} {u : Unicode} {p name data : Bytes} {type : RRType}

theorem process_alone (hm : requested u p = some m) (hpass : Passes treeStore (client mo m) t) :
    (process u mo Radix.Tree.get commits t.1 p).rcode = .success ∧
      (process u mo Radix.Tree.get commits t.1 p).store = (alone treeStore (client mo m) t).1 := by
  have hzone : ¬(t.1.get m.1 = none ∧ m.1 ≠ [dotByte]) := by
    rintro ⟨hnone, hroot⟩
    have hstored := of_decide_eq_true (hpass .zone mem_cons_self)
    exact hstored.elim (fun hne => hne ((get_eq_none_iff _ _).mp hnone)) hroot
  have hprereqs : checkPrerequisites Radix.Tree.get t.1 m.2.1 = .success := by
    rw [checkPrerequisites_success_iff]
    intro pr hpr
    have hread : Lookup.prereq pr ∈ (client mo m).reads :=
      mem_cons_of_mem _ (mem_append_left _ (mem_map_of_mem hpr))
    have hevaluate := of_decide_eq_true (hpass _ hread)
    rw [evaluatePrerequisite_eq] at hevaluate ⊢
    exact hevaluate
  have hadmitted := admitted_of_requested hm hzone hprereqs
  rw [process_admitted mo commits hadmitted, callAll_commits]
  refine ⟨rfl, ?_⟩
  rw [alone, writeAll_tree, updateCalls, domainStates_domains]
  rfl

def Distinct (updates : List RawRR) : Prop :=
  ∀ up ∈ updates, ∀ up' ∈ updates, labels up.name = labels up'.name → up.name = up'.name

theorem alone_adds (hd : Distinct m.2.2) (h : Adds m.2.2 name type data) :
    eraseIn type data ∈ dataAt (eraseSerials (recordsOf (alone treeStore (client mo m) t).1 name)) type := by
  have hup : ∃ up ∈ m.2.2, up.name = name := by
    obtain ⟨before, up, after, heq, -, hname, -⟩ := h
    exact ⟨up, heq ▸ mem_append_right _ mem_cons_self, hname⟩
  obtain ⟨up, hup, rfl⟩ := hup
  have hwritten : eraseSerials (recordsOf (alone treeStore (client mo m) t).1 up.name) =
      eraseSerials (planned treeStore (client mo m) t up.name) := by
    refine alone_written treeStore (client mo m) t (mem_writes.mpr (mem_map_of_mem hup)) rfl ?_
    intro name' hname' hpath
    obtain ⟨up', hup', rfl⟩ := mem_map.mp (mem_writes.mp hname')
    exact hd up' hup' up hup hpath
  rw [hwritten]
  exact foldl_applyUpdateOp_adds h _

theorem alone_keeps (hd : Distinct m.2.2) (hkept : ∀ up ∈ m.2.2, labels up.name = labels name → ¬up.deletes type data)
    (h : eraseIn type data ∈ dataAt (eraseSerials (recordsOf t.1 name)) type) :
    eraseIn type data ∈ dataAt (eraseSerials (recordsOf (alone treeStore (client mo m) t).1 name)) type := by
  by_cases hup : ∃ up ∈ m.2.2, labels up.name = labels name
  · obtain ⟨up, hup, hpath⟩ := hup
    have hwritten : eraseSerials (recordsOf (alone treeStore (client mo m) t).1 name) =
        eraseSerials (planned treeStore (client mo m) t up.name) := by
      refine alone_written treeStore (client mo m) t (mem_writes.mpr (mem_map_of_mem hup)) hpath ?_
      intro name' hname' hpath'
      obtain ⟨up', hup', rfl⟩ := mem_map.mp (mem_writes.mp hname')
      exact hd up' hup' up hup (Eq.trans hpath' hpath.symm)
    rw [hwritten]
    refine foldl_applyUpdateOp_keeps (fun up' hup' hname => hkept up' hup' (hname ▸ hpath)) ?_
    have hsame : t.1.get up.name = t.1.get name := congrArg t.1.contents hpath
    change eraseIn type data ∈ dataAt (eraseSerials (recordsOf t.1 up.name)) type
    rwa [recordsOf, hsame]
  · have huntouched : eraseSerials (recordsOf (alone treeStore (client mo m) t).1 name) =
        eraseSerials (recordsOf t.1 name) := by
      apply alone_untouched treeStore (client mo m) t
      intro name' hname' hpath
      obtain ⟨up', hup', rfl⟩ := mem_map.mp (mem_writes.mp hname')
      exact hup ⟨up', hup', hpath⟩
    rwa [huntouched]

end Client

section Concurrent

variable (mo : Bool → MapOrder) (m : Bool → Bytes × List RawRR × List RawRR) (t : { t : Tree // t.Valid })

def clients (b : Bool) : Client Lookup Bytes RRSets := client (mo b) (m b)

def begin : Run { t : Tree // t.Valid } Lookup Bytes RRSets := Run.start (clients mo m) t []

/-- Two updates that both succeed, of which one is in front wherever they have to do with the same name, leave what that
one and then the other leave, and no record is lost. -/
theorem process_serializable (u : Unicode) (p : Bool → Bytes) (hm : ∀ b, requested u (p b) = some (m b))
    (schedule : List Bool) (x : Run { t : Tree // t.Valid } Lookup Bytes RRSets)
    (hrun : Guarded.run (step treeStore (clients mo m)) (begin mo m t) schedule = some x) (hdone : x.Finished)
    (hyields : ∃ first, Guarded.Meets (step treeStore (clients mo m)) (Yields treeStore (clients mo m) first)
      (begin mo m t) schedule) :
    (∃ first, (process u (mo first) Radix.Tree.get commits t.1 (p first)).rcode = .success ∧
      (process u (mo !first) Radix.Tree.get commits (process u (mo first) Radix.Tree.get commits t.1 (p first)).store
        (p !first)).rcode = .success ∧
      ∀ name, eraseSerials (recordsOf x.store.1 name) = eraseSerials (recordsOf (process u (mo !first) Radix.Tree.get commits
        (process u (mo first) Radix.Tree.get commits t.1 (p first)).store (p !first)).store name)) ∧
      ((∀ b, Distinct (m b).2.2) → ∀ b name type data, Adds (m b).2.2 name type data →
        (∀ up ∈ (m !b).2.2, labels up.name = labels name → ¬up.deletes type data) →
        eraseIn type data ∈ dataAt (eraseSerials (recordsOf x.store.1 name)) type) := by
  obtain ⟨first, hmeets⟩ := hyields
  obtain ⟨hpass, hpass', hfinal⟩ :=
    serial_of_yields treeStore (clients mo m) first t (fun _ => client_sound) [] hrun hdone hmeets
  have hrecords : ∀ name, eraseSerials (recordsOf x.store.1 name) = eraseSerials (recordsOf
      (alone treeStore (clients mo m !first) (alone treeStore (clients mo m first) t)).1 name) := hfinal
  constructor
  · obtain ⟨hok, hstore⟩ := process_alone (hm first) hpass
    obtain ⟨hok', hstore'⟩ := process_alone (hm !first) hpass'
    rw [← clients] at hstore hstore'
    refine ⟨first, hok, ?_⟩
    rw [hstore]
    refine ⟨hok', fun name => ?_⟩
    rw [hstore']
    exact hrecords name
  · intro hd b name type data hadds hkept
    rw [hrecords]
    by_cases hb : b = first
    · subst hb
      exact alone_keeps (hd _) hkept (alone_adds (hd b) hadds)
    · obtain rfl : b = !first := Bool.eq_not_of_ne hb
      exact alone_adds (hd _) hadds

def addHost (l : UInt8) : Bytes := [0, 0, 0x28, 0, 0, 1, 0, 0, 0, 1, 0, 0, 1, 97, 0, 0, 6, 0, 1] ++ hostRecord l

def hostMessage (l : UInt8) : Bytes × List RawRR × List RawRR :=
  ([97, 46], [], [⟨[l, 46, 97, 46], [10, 0, 0, 1], 60, typeA, classIN⟩])

def twoHosts (b : Bool) : Bytes × List RawRR × List RawRR := hostMessage (if b then 100 else 99)

theorem process_serializable_hosts :
    ∃ x, Guarded.run (step treeStore (clients (fun _ => .insertion) twoHosts))
        (begin (fun _ => .insertion) twoHosts ⟨apexTree, apexTree_valid⟩) [false, true, false, true, true, false] = some x ∧
      x.Finished ∧ ∃ first : Bool, ∀ name, eraseSerials (recordsOf x.store.1 name) = eraseSerials (recordsOf
        (process .basic .insertion Radix.Tree.get commits (process .basic .insertion Radix.Tree.get commits apexTree
          (addHost (if first then 100 else 99))).store (addHost (if !first then 100 else 99))).store name) := by
  have hsome : ∃ x, Guarded.run (step treeStore (clients (fun _ => .insertion) twoHosts))
      (begin (fun _ => .insertion) twoHosts ⟨apexTree, apexTree_valid⟩) [false, true, false, true, true, false] = some x ∧
      ∀ b, (x.progress b).toRead = [] ∧ (x.progress b).toWrite = [] := Guarded.run_some _ (by decide +kernel)
  obtain ⟨x, hrun, hdone⟩ := hsome
  have hm : ∀ b, requested .basic (addHost (if b then 100 else 99)) = some (twoHosts b) := by decide +kernel
  obtain ⟨⟨first, -, -, hrecords⟩, -⟩ := process_serializable (fun _ => .insertion) twoHosts ⟨apexTree, apexTree_valid⟩ .basic
    (fun b => addHost (if b then 100 else 99)) hm _ x hrun hdone ⟨false, by decide +kernel⟩
  exact ⟨x, hrun, hdone, first, hrecords⟩

def addAddress (last : UInt8) : Bytes :=
  [0, 0, 0x28, 0, 0, 1, 0, 0, 0, 1, 0, 0, 1, 97, 0, 0, 6, 0, 1] ++
    [1, 99, 1, 97, 0, 0, 1, 0, 1, 0, 0, 0, 60, 0, 4, 10, 0, 0, last]

def addressOf (b : Bool) : Bytes × List RawRR × List RawRR :=
  ([97, 46], [], [⟨[99, 46, 97, 46], [10, 0, 0, if b then 2 else 1], 60, typeA, classIN⟩])

/-- Both updates read before either commits: the address committed first is lost, and no order of the two explains it. -/
theorem process_loses_record :
    requested .basic (addAddress 1) = some (addressOf false) ∧ requested .basic (addAddress 2) = some (addressOf true) ∧
      Adds (addressOf false).2.2 [99, 46, 97, 46] typeA [10, 0, 0, 1] ∧
      (∀ up ∈ (addressOf true).2.2, ¬up.deletes typeA [10, 0, 0, 1]) ∧
      ∃ x, Guarded.run (step treeStore (clients (fun _ => .insertion) addressOf))
          (begin (fun _ => .insertion) addressOf ⟨apexTree, apexTree_valid⟩) [false, false, true, true, false, true] = some x ∧
        x.Finished ∧ eraseIn typeA [10, 0, 0, 1] ∉ dataAt (eraseSerials (recordsOf x.store.1 [99, 46, 97, 46])) typeA ∧
        ∀ first : Bool, eraseSerials (recordsOf x.store.1 [99, 46, 97, 46]) ≠ eraseSerials (recordsOf (process .basic .insertion
          Radix.Tree.get commits (process .basic .insertion Radix.Tree.get commits apexTree (addAddress (if first then 2 else 1))).store
            (addAddress (if first then 1 else 2))).store [99, 46, 97, 46]) := by
  refine ⟨by decide +kernel, by decide +kernel, ⟨[], _, [], rfl, rfl, rfl, rfl, rfl, by simp⟩, ?_, ?_⟩
  · rintro up hup hdel
    rw [mem_singleton.mp hup] at hdel
    exact hdel
  · exact Guarded.run_some (step treeStore (clients (fun _ => .insertion) addressOf))
      (P := fun x => (∀ b, (x.progress b).toRead = [] ∧ (x.progress b).toWrite = []) ∧ _ ∉ _ ∧ ∀ first, _ ≠ _) (by decide +kernel)

end Concurrent

end Kdns.Update
