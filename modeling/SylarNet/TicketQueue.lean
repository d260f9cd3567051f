import Mathlib.Data.List.Perm.Basic
import Mathlib.Data.List.Range
import Mathlib.Order.Basic

/-! A queue whose entries carry the position they have in the record of everything that was
ever put into it, with the list of the entries that were taken out, from any place of it. -/
namespace TicketQueue

variable {α : Type*}

/-- Every position of the record is in the queue or taken, once; the queue keeps the order. -/
structure Ledger (log : List α) (queue taken : List (ℕ × α)) : Prop where
  account : ((queue ++ taken).map Prod.fst).Perm (List.range log.length)
  recorded : ∀ x ∈ queue ++ taken, log[x.1]? = some x.2
  order : (queue.map Prod.fst).Pairwise (· < ·)

namespace Ledger

variable {log : List α} {queue taken : List (ℕ × α)}

theorem nil : Ledger ([] : List α) [] [] := ⟨by simp, by simp, by simp⟩

theorem lt_length (h : Ledger log queue taken) {x : ℕ × α} (hx : x ∈ queue ++ taken) :
    x.1 < log.length :=
  (List.getElem?_eq_some_iff.1 (h.recorded x hx)).1

theorem push (h : Ledger log queue taken) (a : α) :
    Ledger (log ++ [a]) (queue ++ [(log.length, a)]) taken := by
  refine ⟨?_, ?_, ?_⟩
  · have hswap : ((queue ++ [(log.length, a)] ++ taken).map Prod.fst).Perm
        (((queue ++ taken) ++ [(log.length, a)]).map Prod.fst) := by
      apply List.Perm.map
      rw [List.append_assoc, List.append_assoc]
      exact List.Perm.append_left queue List.perm_append_comm
    apply hswap.trans
    rw [List.map_append, List.length_append, List.length_singleton, List.range_succ]
    exact h.account.append_right _
  · intro x hx
    have hcases : x ∈ queue ++ taken ∨ x = (log.length, a) := by
      simp only [List.mem_append, List.mem_singleton] at hx ⊢
      tauto
    rcases hcases with hx | rfl
    · rw [List.getElem?_append_left (h.lt_length hx)]
      exact h.recorded x hx
    · simp
  · rw [List.map_append, List.pairwise_append]
    refine ⟨h.order, by simp, ?_⟩
    intro k hk l hl
    obtain ⟨x, hx, rfl⟩ := List.mem_map.1 hk
    simp only [List.map_cons, List.map_nil, List.mem_singleton] at hl
    rw [hl]
    exact h.lt_length (List.mem_append_left _ hx)

theorem take {pre post : List (ℕ × α)} {x : ℕ × α} (h : Ledger log (pre ++ x :: post) taken) :
    Ledger log (pre ++ post) (taken ++ [x]) := by
  have hperm : (pre ++ post ++ (taken ++ [x])).Perm (pre ++ x :: post ++ taken) := by
    rw [List.append_assoc, List.append_assoc]
    apply List.Perm.append_left pre
    rw [← List.append_assoc, List.cons_append]
    exact List.perm_append_comm
  refine ⟨(hperm.map _).trans h.account, fun y hy => h.recorded y (hperm.subset hy), ?_⟩
  refine h.order.sublist (List.Sublist.map _ ?_)
  exact List.Sublist.append_left (List.sublist_cons_self x post) pre

/-- No position is taken twice, and none that is still queued is taken. -/
theorem nodup (h : Ledger log queue taken) : ((queue ++ taken).map Prod.fst).Nodup :=
  h.account.nodup_iff.2 List.nodup_range

/-- The record is what is queued and what was taken, as multisets. -/
theorem log_perm (h : Ledger log queue taken) :
    log.Perm ((queue ++ taken).map Prod.snd) := by
  have hsnd : (queue ++ taken).map Prod.snd =
      ((queue ++ taken).map Prod.fst).filterMap fun k => log[k]? := by
    rw [List.filterMap_map, ← List.filterMap_eq_map]
    apply List.filterMap_congr
    intro x hx
    exact (h.recorded x hx).symm
  have hmap : (List.range log.length).map (fun k => log[k]?) = log.map some := by
    apply List.ext_getElem (by simp)
    intro k hk _
    rw [List.length_map, List.length_range] at hk
    simp [hk]
  have hlog : (List.range log.length).filterMap (fun k => log[k]?) = log := by
    have h := congrArg (List.filterMap id) hmap
    rw [List.filterMap_map, List.filterMap_map] at h
    simpa [Function.comp_def] using h
  have hperm := h.account.symm.filterMap fun k => log[k]?
  rw [hlog] at hperm
  rwa [hsnd]

/-- In the order of the queue, what stands before an entry has the smaller positions. -/
theorem mem_pre_of_lt {pre post : List (ℕ × α)} {x y : ℕ × α}
    (h : Ledger log (pre ++ x :: post) taken) (hy : y ∈ pre ++ x :: post) (hlt : y.1 < x.1) :
    y ∈ pre := by
  rcases List.mem_append.1 hy with hy | hy
  · exact hy
  · have hord := (List.pairwise_append.1 (List.map_append ▸ h.order)).2.1
    rw [List.map_cons, List.pairwise_cons] at hord
    rcases List.mem_cons.1 hy with rfl | hy
    · exact absurd hlt (lt_irrefl _)
    · exact absurd (hord.1 y.1 (List.mem_map_of_mem hy)) (lt_asymm hlt)

/-- An earlier position is queued before the entry or was taken. -/
theorem queued_or_taken (h : Ledger log queue taken) {k : ℕ} {a : α} (hk : log[k]? = some a) :
    (k, a) ∈ queue ∨ (k, a) ∈ taken := by
  have hlt : k < log.length := (List.getElem?_eq_some_iff.1 hk).1
  have hmem : k ∈ (queue ++ taken).map Prod.fst := by
    rw [h.account.mem_iff, List.mem_range]
    exact hlt
  obtain ⟨x, hx, rfl⟩ := List.mem_map.1 hmem
  have hxa : x.2 = a := Option.some.inj ((h.recorded x hx).symm.trans hk)
  rw [← hxa]
  exact List.mem_append.1 hx

end Ledger

end TicketQueue
