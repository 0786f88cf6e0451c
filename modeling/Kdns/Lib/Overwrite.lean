import Mathlib.Logic.Function.Basic
import Mathlib.Data.List.Induction

/-! Logs of whole-key writes over maps `K → Option V`: what is written last to a key wins. -/

namespace Overwrite

open List

variable {K V : Type} [DecidableEq K]

def put (m : K → Option V) (w : K × Option V) : K → Option V := Function.update m w.1 w.2

def replay (m : K → Option V) (ws : List (K × Option V)) : K → Option V := ws.foldl put m

theorem replay_append (m : K → Option V) (ws vs : List (K × Option V)) :
    replay m (ws ++ vs) = replay (replay m ws) vs := foldl_append

theorem replay_untouched (m : K → Option V) (ws : List (K × Option V)) (k : K) (hk : k ∉ ws.map Prod.fst) :
    replay m ws k = m k := by
  induction ws generalizing m with
  | nil => rfl
  | cons w ws ih =>
    simp only [map_cons, mem_cons, not_or] at hk
    exact (ih _ hk.2).trans (Function.update_of_ne hk.1 _ _)

theorem replay_touched (m m' : K → Option V) (ws : List (K × Option V)) (k : K) (hk : k ∈ ws.map Prod.fst) :
    replay m ws k = replay m' ws k := by
  induction ws generalizing m m' with
  | nil => simp at hk
  | cons w ws ih =>
    simp only [replay, foldl_cons]
    by_cases hr : k ∈ ws.map Prod.fst
    · exact ih _ _ hr
    · have he : k = w.1 := by
        simp only [map_cons, mem_cons] at hk
        exact hk.resolve_right hr
      have h₁ := replay_untouched (put m w) ws k hr
      have h₂ := replay_untouched (put m' w) ws k hr
      simp only [replay, put, he, Function.update_self] at h₁ h₂
      simp only [put, he, h₁, h₂]

theorem replay_replay (m : K → Option V) (ws : List (K × Option V)) : replay (replay m ws) ws = replay m ws := by
  funext k
  by_cases hk : k ∈ ws.map Prod.fst
  · exact replay_touched _ _ ws k hk
  · exact replay_untouched _ ws k hk

theorem replay_eq_base_iff (m z : K → Option V) (ws : List (K × Option V)) :
    replay z ws = z ↔ ∀ k ∈ ws.map Prod.fst, z k = replay m ws k := by
  constructor
  · intro h k hk
    rw [← h]
    exact replay_touched _ _ ws k hk
  · intro h
    funext k
    by_cases hk : k ∈ ws.map Prod.fst
    · rw [h k hk]
      exact replay_touched _ _ ws k hk
    · exact replay_untouched _ ws k hk

theorem replay_eq_replay_iff (m z : K → Option V) (ws : List (K × Option V)) :
    replay z ws = replay m ws ↔ ∀ k ∉ ws.map Prod.fst, z k = replay m ws k := by
  constructor
  · intro h k hk
    rw [← h]
    exact (replay_untouched z ws k hk).symm
  · intro h
    funext k
    by_cases hk : k ∈ ws.map Prod.fst
    · exact replay_touched _ _ ws k hk
    · rw [replay_untouched z ws k hk, h k hk]

theorem replay_self (m : K → Option V) (ws : List (K × Option V)) (hw : ∀ w ∈ ws, w.2 = m w.1) : replay m ws = m := by
  induction ws with
  | nil => rfl
  | cons w ws ih =>
    obtain ⟨h₁, h₂⟩ := forall_mem_cons.mp hw
    have hput : put m w = m := by rw [put, h₁, Function.update_eq_self]
    rw [replay, foldl_cons, hput]
    exact ih h₂

theorem replay_listing (m : K → Option V) (ws : List (K × Option V)) (hw : ∀ w ∈ ws, w.2 = m w.1)
    (hm : ∀ k, m k ≠ none → k ∈ ws.map Prod.fst) : replay (fun _ => none) ws = m := by
  funext k
  by_cases hk : k ∈ ws.map Prod.fst
  · exact (replay_touched _ m ws k hk).trans (congrFun (replay_self m ws hw) k)
  · rw [replay_untouched _ ws k hk]
    by_contra h
    exact hk (hm k (Ne.symm h))

theorem replay_last (m : K → Option V) (ws : List (K × Option V)) (k : K) :
    replay m ws k = ((ws.reverse.find? fun w => w.1 = k).map Prod.snd).getD (m k) := by
  induction ws using List.reverseRecOn with
  | nil => rfl
  | append_singleton ws w ih =>
    rw [replay_append, reverse_append, reverse_singleton, singleton_append, List.find?_cons]
    change Function.update (replay m ws) w.1 w.2 k = _
    by_cases he : w.1 = k
    · rw [← he, Function.update_self]
      simp
    · rw [Function.update_of_ne (Ne.symm he), ih]
      simp [he]

theorem replay_mem {ws : List (K × Option V)} (hnodup : (ws.map Prod.fst).Nodup) {w : K × Option V} (hw : w ∈ ws)
    (m : K → Option V) : replay m ws w.1 = w.2 := by
  induction ws generalizing m with
  | nil => cases hw
  | cons x ws ih =>
    rw [map_cons, nodup_cons] at hnodup
    rcases mem_cons.mp hw with rfl | hw
    · exact (replay_untouched _ ws _ hnodup.1).trans (Function.update_self _ _ _)
    · exact ih hnodup.2 hw _

def Holds (Q : K → V → Prop) (m : K → Option V) : Prop := ∀ k v, m k = some v → Q k v

theorem holds_put {Q : K → V → Prop} {m : K → Option V} {w : K × Option V} (h : Holds Q m)
    (hw : ∀ v, w.2 = some v → Q w.1 v) : Holds Q (put m w) := by
  intro k v hk
  rw [put] at hk
  by_cases he : k = w.1
  · subst he
    rw [Function.update_self] at hk
    exact hw v hk
  · rw [Function.update_of_ne he] at hk
    exact h k v hk

theorem holds_replay {Q : K → V → Prop} {m : K → Option V} {ws : List (K × Option V)} (h : Holds Q m)
    (hw : ∀ w ∈ ws, ∀ v, w.2 = some v → Q w.1 v) : Holds Q (replay m ws) := by
  induction ws generalizing m with
  | nil => exact h
  | cons w ws ih =>
    obtain ⟨h₁, h₂⟩ := forall_mem_cons.mp hw
    exact ih (holds_put h h₁) h₂

end Overwrite
