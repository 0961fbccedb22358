import GoQuant.Book.Levels
import GoQuant.Lib.Precedence

/-!
# The walk keeps ladders proper

Whatever is done to a ladder, its prices stay in order, its queues nonempty, its quantities positive
and its ids distinct, as long as an order that joins it has a new id and a positive quantity.

## Main results

* `Greedy.proper_after`, `Greedy.proper_call` — the ladders after an order, and after a request.
* `Greedy.line_after_own`, `Greedy.line_after_opposite`, `Greedy.line_call` — the queues.
* `Greedy.not_mem_line_of_gives` — what stands in front of a maker is used up.
-/

namespace GoQuant

namespace Greedy

/-- One side of proper ladders. -/
structure ProperSide (s : Side) (ts : List (Tier ℚ Order)) : Prop where
  sorted : Keyed.Sorted Tier.key s.ahead ts
  nonempty : ∀ t ∈ ts, t.items ≠ []
  placed : ∀ t ∈ ts, ∀ o ∈ t.items, o.side = s ∧ o.price = t.key
  positive : ∀ o ∈ Ladder.items ts, 0 < o.quantity
  distinct : ((Ladder.items ts).map Order.id).Nodup

variable {ladder : Side → List (Tier ℚ Order)} {taker o m : Order} {s : Side} {req : Request}
  {ts : List (Tier ℚ Order)} {q : ℚ}

theorem proper_iff : Proper ladder ↔ ∀ s, ProperSide s (ladder s) :=
  ⟨fun h s => ⟨h.sorted s, h.nonempty s, h.placed s, h.positive s, h.distinct s⟩,
    fun h => ⟨fun s => (h s).sorted, fun s => (h s).nonempty, fun s => (h s).placed,
      fun s => (h s).positive, fun s => (h s).distinct⟩⟩

/-- The ids that are left of a queue whose orders keep theirs. -/
theorem ids_filterMap {f : Order → Option Order} (hid : ∀ o o', f o = some o' → o'.id = o.id)
    (os : List Order) : ((os.filterMap f).map Order.id).Sublist (os.map Order.id) := by
  induction os with
  | nil => exact List.Sublist.refl _
  | cons o os ih =>
    rw [List.filterMap_cons]
    cases ho : f o with
    | none => exact ih.cons o.id
    | some o' =>
      rw [List.map_cons, List.map_cons, hid o o' ho]
      exact ih.cons_cons o.id

namespace ProperSide

/-- Orders leave, or get another positive quantity. -/
theorem update (h : ProperSide s ts) {f : Order → Option Order}
    (hf : ∀ o ∈ Ladder.items ts, ∀ o', f o = some o' → 0 < o'.quantity)
    (hkeep : ∀ o o', f o = some o' → o'.id = o.id ∧ o'.side = o.side ∧ o'.price = o.price) :
    ProperSide s (Ladder.update f ts) where
  sorted := Ladder.sorted_update h.sorted f
  nonempty t ht := by
    obtain ⟨u, -, hu⟩ := List.mem_filterMap.mp ht
    obtain ⟨rfl, hne⟩ := Ladder.refill_eq_some.mp hu
    exact hne
  placed t ht o' ho' := by
    obtain ⟨u, hmem, hu⟩ := List.mem_filterMap.mp ht
    obtain ⟨rfl, -⟩ := Ladder.refill_eq_some.mp hu
    obtain ⟨o, ho, hfo⟩ := List.mem_filterMap.mp ho'
    obtain ⟨-, hside, hprice⟩ := hkeep o o' hfo
    rw [hside, hprice]
    exact h.placed u hmem o ho
  positive o' ho' := by
    rw [Ladder.items_update] at ho'
    obtain ⟨o, ho, hfo⟩ := List.mem_filterMap.mp ho'
    exact hf o ho o' hfo
  distinct := by
    rw [Ladder.items_update]
    exact h.distinct.sublist (ids_filterMap (fun o o' ho => (hkeep o o' ho).1) _)

/-- An order with a new id queues up. -/
theorem push (h : ProperSide o.side ts) (hq : 0 < o.quantity)
    (hid : o.id ∉ (Ladder.items ts).map Order.id) :
    ProperSide o.side (Ladder.push o.side.ahead o.price o ts) where
  sorted := Ladder.sorted_push h.sorted
  nonempty t ht := by
    rcases Ladder.mem_push ht with hold | ⟨items, rfl, -⟩
    · exact h.nonempty t hold
    · exact List.append_ne_nil_of_right_ne_nil items (List.cons_ne_nil o [])
  placed t ht o' ho' := by
    rcases Ladder.mem_push ht with hold | ⟨items, rfl, hitems⟩
    · exact h.placed t hold o' ho'
    · rcases List.mem_append.mp ho' with hin | hnew
      · exact h.placed _ (hitems o' hin) o' hin
      · obtain rfl := List.mem_singleton.mp hnew
        exact ⟨rfl, rfl⟩
  positive o' ho' := by
    rcases Ladder.mem_items_push.mp ho' with hold | rfl
    · exact h.positive o' hold
    · exact hq
  distinct := by
    have hperm := (Ladder.items_push_perm (k := o.price) (a := o) h.sorted).map Order.id
    exact hperm.nodup_iff.mpr (List.nodup_cons.mpr ⟨hid, h.distinct⟩)

end ProperSide

theorem settle_keeps {fs : List (Order × ℚ)} {o o' : Order} (h : settle fs o = some o') :
    o'.id = o.id ∧ o'.side = o.side ∧ o'.price = o.price := by
  unfold settle at h
  split at h
  · obtain rfl := Option.some.inj h
    exact ⟨rfl, rfl, rfl⟩
  · split_ifs at h
    obtain rfl := Option.some.inj h
    exact ⟨rfl, rfl, rfl⟩

/-- The ids that stand on a side, best price first and by arrival. -/
def line (ladder : Side → List (Tier ℚ Order)) (s : Side) : List String :=
  (Ladder.items (ladder s)).map Order.id

/-- The ladders after a new order. -/
theorem proper_after (h : Proper ladder) (hid : taker.id ∉ line ladder taker.side) :
    Proper (after taker ladder) := by
  refine proper_iff.mpr fun s => ?_
  rcases Side.eq_or_eq_opposite s taker.side with rfl | rfl
  · rw [after_own]
    split_ifs with hrests
    · exact (proper_iff.mp h taker.side).push (o := { taker with quantity := left taker ladder })
        hrests.2 hid
    · exact proper_iff.mp h taker.side
  · rw [after_opposite (h.nonempty _)]
    refine (proper_iff.mp h _).update (fun o ho o' => ?_) fun o o' => settle_keeps
    exact settle_pos (fun p hp => (h.fst_mem_of_mem_takes hp).2) (h.positive _ o ho)

/-- New quantities for the orders of an id, as an update. -/
theorem map_resize (h : Proper ladder) (orderId : String) (q : ℚ) (s : Side) :
    (ladder s).map (Tier.map (resize orderId q)) =
      Ladder.update (fun o => some (resize orderId q o)) (ladder s) := by
  rw [← Ladder.update_map, Ladder.update_some]
  intro t ht
  obtain ⟨u, hu, rfl⟩ := List.mem_map.mp ht
  exact fun hnil => h.nonempty s u hu (List.map_eq_nil_iff.mp hnil)

/-- The ladders after a request that is no new order. -/
theorem proper_call (h : Proper ladder) (hreq : ∀ o, req ≠ .submit o)
    (hq : ∀ orderId q, req = .modify orderId q → 0 < q) : Proper (call ladder req) := by
  refine proper_iff.mpr fun s => ?_
  have hside := proper_iff.mp h s
  cases req with
  | submit o => exact absurd rfl (hreq o)
  | cancel orderId =>
    refine hside.update (fun o ho o' ho' => ?_) fun o o' ho' => ?_
    · obtain ⟨rfl, -⟩ := Option.guard_eq_some_iff.mp ho'
      exact h.positive s o ho
    · obtain ⟨rfl, -⟩ := Option.guard_eq_some_iff.mp ho'
      exact ⟨rfl, rfl, rfl⟩
  | modify orderId q =>
    simp only [call, map_resize h]
    refine hside.update (fun o ho o' ho' => ?_) fun o o' ho' => ?_
    · obtain rfl := Option.some.inj ho'
      unfold resize
      split_ifs
      · exact hq orderId q rfl
      · exact h.positive s o ho
    · obtain rfl := Option.some.inj ho'
      unfold resize
      split_ifs <;> exact ⟨rfl, rfl, rfl⟩

/-! ## Queues -/

theorem line_after_own (hid : taker.id ∉ line ladder taker.side) :
    (line ladder taker.side).Sublist (line (after taker ladder) taker.side) := by
  rw [line, line, after_own]
  split_ifs
  · refine (Ladder.items_sublist_push fun hin => ?_).map Order.id
    exact hid (List.mem_map.mpr ⟨_, hin, rfl⟩)
  · exact List.Sublist.refl _

theorem line_after_opposite (h : Proper ladder) :
    (line (after taker ladder) taker.side.opposite).Sublist
      (line ladder taker.side.opposite) := by
  rw [line, line, after_opposite (h.nonempty _), Ladder.items_update]
  exact ids_filterMap (fun o o' ho => (settle_keeps ho).1) _

theorem mem_line_after (h : Proper ladder) {id : String} (hid : id ∈ line (after taker ladder) s) :
    id ∈ line ladder s ∨ s = taker.side ∧ id = taker.id := by
  rcases Side.eq_or_eq_opposite s taker.side with rfl | rfl
  · rw [line, after_own] at hid
    split_ifs at hid
    · obtain ⟨o, ho, rfl⟩ := List.mem_map.mp hid
      rcases Ladder.mem_items_push.mp ho with hold | rfl
      · exact Or.inl (List.mem_map_of_mem hold)
      · exact Or.inr ⟨rfl, rfl⟩
    · exact Or.inl hid
  · exact Or.inl ((line_after_opposite h).subset hid)

theorem line_call (h : Proper ladder) (hreq : ∀ o, req ≠ .submit o) (s : Side) :
    (line (call ladder req) s).Sublist (line ladder s) := by
  cases req with
  | submit o => exact absurd rfl (hreq o)
  | cancel orderId =>
    rw [line, line, call, Ladder.items_retain]
    exact List.filter_sublist.map Order.id
  | modify orderId q =>
    simp only [line, call, map_resize h, Ladder.items_update]
    exact ids_filterMap (fun o o' ho => by rw [← Option.some.inj ho, resize_id]) _

/-- What gives all it has is gone. -/
theorem settle_eq_none {fs : List (Order × ℚ)} (hnd : (fs.map Prod.fst).Nodup)
    (h : (m, m.quantity) ∈ fs) : settle fs m = none := by
  unfold settle
  split
  · rename_i hnone
    simpa using List.find?_eq_none.mp hnone _ h
  · rename_i p hsome
    have hp : p.1 = m := by simpa using List.find?_some hsome
    obtain rfl := List.inj_on_of_nodup_map hnd (List.mem_of_find?_eq_some hsome) h hp
    exact if_pos rfl

/-- Before an order gives anything, what stands in front of it is used up. -/
theorem not_mem_line_of_gives (h : Proper ladder) {a b : String}
    (hbefore : Before a b (line ladder taker.side.opposite))
    (hgives : ∃ p ∈ takes taker ladder, p.1.id = b) :
    a ∉ line (after taker ladder) taker.side.opposite := by
  obtain ⟨p, hp, rfl⟩ := hgives
  obtain ⟨xs, hxs, heq⟩ := List.sublist_map_iff.mp hbefore
  obtain ⟨x, y, rfl⟩ : ∃ x y, xs = [x, y] := by
    have hlength := congrArg List.length heq
    rw [List.length_map] at hlength
    exact List.length_eq_two.mp hlength.symm
  obtain ⟨rfl, hy⟩ := List.cons.inj heq
  have hnodup : (Ladder.items (ladder taker.side.opposite)).Nodup := (h.distinct _).of_map _
  have hitems : Before x y (Ladder.items (ladder taker.side.opposite)) := hxs
  obtain rfl : p.1 = y := List.inj_on_of_nodup_map (h.distinct _)
    (h.fst_mem_of_mem_takes hp).1 hitems.mem_right (List.cons.inj hy).1
  have hall : (x, x.quantity) ∈ takes taker ladder := by
    unfold takes at hp ⊢
    split_ifs at hp ⊢
    · cases hp
    · have hprefix : makers taker ladder <+: Ladder.items (ladder taker.side.opposite) :=
        Ladder.reach_prefix _ _
      exact Fill.give_of_before (hitems.of_prefix hnodup hprefix (Fill.fst_mem_of_mem_fills hp))
        (hnodup.sublist hprefix.sublist) hp
  intro hin
  rw [line, after_opposite (h.nonempty _), Ladder.items_update] at hin
  obtain ⟨x', hx', hid⟩ := List.mem_map.mp hin
  obtain ⟨z, hz, hsettle⟩ := List.mem_filterMap.mp hx'
  obtain rfl : z = x := List.inj_on_of_nodup_map (h.distinct _) hz hitems.mem_left
    ((settle_keeps hsettle).1.symm.trans hid)
  rw [settle_eq_none h.takes_nodup hall] at hsettle
  cases hsettle

end Greedy

end GoQuant
