import Mathlib.Data.List.Pairwise
import Mathlib.Data.List.TakeWhile

/-!
# Lists that are kept in order

A list of elements with keys, in the order of a transitive relation on the keys. Inserting
an element behind those that belong before it keeps the order. Giving one element another
key keeps it when the new key still goes behind that of the element in front and before
whatever the old one went before.
-/
namespace FlowiVfs

variable {α β : Type} {r : β → β → Prop} {key key' : α → β} {L : List α} {p : α}

theorem pairwise_insert (trans : ∀ a b c, r a b → r b c → r a c) {pass : α → Bool}
    (sorted : (L.map key).Pairwise r) (front : ∀ x ∈ L, pass x = true → r (key x) (key p))
    (behind : ∀ x ∈ L, pass x = false → r (key p) (key x)) :
    ((L.takeWhile pass ++ p :: L.dropWhile pass).map key).Pairwise r := by
  induction L with
  | nil => simp
  | cons x rest ih =>
      rw [List.map_cons, List.pairwise_cons] at sorted
      obtain ⟨first, sorted⟩ := sorted
      cases here : pass x with
      | true =>
          rw [List.takeWhile_cons_of_pos here, List.dropWhile_cons_of_pos here, List.cons_append,
            List.map_cons, List.pairwise_cons]
          constructor
          · intro k hk
            obtain ⟨y, hy, rfl⟩ := List.mem_map.mp hk
            have split : (rest.takeWhile pass ++ p :: rest.dropWhile pass).Perm
                (p :: (rest.takeWhile pass ++ rest.dropWhile pass)) := List.perm_middle
            rw [List.takeWhile_append_dropWhile] at split
            rcases List.mem_cons.mp (split.mem_iff.mp hy) with rfl | later
            · exact front x List.mem_cons_self here
            · exact first _ (List.mem_map_of_mem later)
          · apply ih sorted
            · exact fun y hy => front y (List.mem_cons_of_mem x hy)
            · exact fun y hy => behind y (List.mem_cons_of_mem x hy)
      | false =>
          have stop : ¬ pass x = true := by simp [here]
          have before := behind x List.mem_cons_self here
          rw [List.takeWhile_cons_of_neg stop, List.dropWhile_cons_of_neg stop, List.nil_append,
            List.map_cons, List.map_cons, List.pairwise_cons, List.pairwise_cons]
          refine ⟨?_, first, sorted⟩
          intro k hk
          rcases List.mem_cons.mp hk with rfl | later
          · exact before
          · exact trans _ _ _ before (first k later)

theorem pairwise_rekey (trans : ∀ a b c, r a b → r b c → r a c) (distinct : L.Nodup)
    (sorted : (L.map key).Pairwise r) (others : ∀ x ∈ L, x ≠ p → key' x = key x)
    (front : ∀ pre q post, L = pre ++ q :: p :: post → r (key q) (key' p))
    (behind : ∀ k, r (key p) k → r (key' p) k) : (L.map key').Pairwise r := by
  by_cases inside : p ∈ L
  · obtain ⟨pre, post, rfl⟩ := List.append_of_mem inside
    have apart := (List.nodup_append.mp distinct).2.2
    have once := (List.nodup_cons.mp (List.nodup_append.mp distinct).2.1).1
    have before : pre.map key' = pre.map key :=
      List.map_congr_left fun x hx =>
        others x (List.mem_append_left _ hx) (apart x hx p List.mem_cons_self)
    have after : post.map key' = post.map key :=
      List.map_congr_left fun x hx =>
        others x (List.mem_append_right _ (List.mem_cons_of_mem p hx)) fun e => once (e ▸ hx)
    rw [List.map_append, List.map_cons, List.pairwise_append, List.pairwise_cons] at sorted
    obtain ⟨inFront, ⟨fromHere, inBack⟩, across⟩ := sorted
    have reaches : ∀ k ∈ pre.map key, r k (key' p) := by
      rcases List.eq_nil_or_concat pre with rfl | ⟨ahead, q, rfl⟩
      · intro k hk
        cases hk
      · have last : r (key q) (key' p) := by
          apply front ahead q post
          simp
        rw [List.concat_eq_append, List.map_append, List.pairwise_append] at inFront
        intro k hk
        rw [List.concat_eq_append, List.map_append, List.map_singleton] at hk
        rcases List.mem_append.mp hk with earlier | here
        · exact trans _ _ _ (inFront.2.2 k earlier (key q) List.mem_cons_self) last
        · rw [List.mem_singleton.mp here]
          exact last
    rw [List.map_append, List.map_cons, before, after, List.pairwise_append, List.pairwise_cons]
    refine ⟨inFront, ⟨fun k hk => behind k (fromHere k hk), inBack⟩, ?_⟩
    intro a ha b hb
    rcases List.mem_cons.mp hb with rfl | later
    · exact reaches a ha
    · exact across a ha b (List.mem_cons_of_mem _ later)
  · have same : L.map key' = L.map key :=
      List.map_congr_left fun x hx => others x hx fun e => inside (e ▸ hx)
    rw [same]
    exact sorted

end FlowiVfs
