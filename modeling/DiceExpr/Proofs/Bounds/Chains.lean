import DiceExpr.Proofs.Courses
import DiceExpr.Proofs.Bounds.Splits

namespace DiceExpr

open Value

private theorem forall₂_replicate {R : Value → Value → Prop} {vals : List Value} {b : Value}
    (h : ∀ v ∈ vals, R v b) : List.Forall₂ R vals (List.replicate vals.length b) := by
  induction vals with
  | nil => exact .nil
  | cons v vals ih =>
    exact .cons (h v List.mem_cons_self) (ih fun w hw => h w (List.mem_cons_of_mem v hw))

private theorem total_passed_le {passed : List Value} {b : Value} (h : ∀ v ∈ passed, v ≤ b) :
    total passed ≤ times b passed.length := by
  rw [← total_replicate]
  exact total_le_total (forall₂_replicate h)

private theorem le_total_passed {passed : List Value} {b : Value} (h : ∀ v ∈ passed, b ≤ v) :
    times b passed.length ≤ total passed := by
  have hflip : List.Forall₂ (fun v w => w ≤ v) passed (List.replicate passed.length b) :=
    forall₂_replicate h
  rw [← total_replicate]
  exact total_le_total hflip.flip

private theorem zero_add_of_add {a b : Value} (h : a ≤ 0) : add a b ≤ b := by
  have hle := add_le_add h (le_refl b)
  rwa [Value.zero_add] at hle

private theorem add_of_zero_add {a b : Value} (h : 0 ≤ a) : b ≤ add a b := by
  have hle := add_le_add h (le_refl b)
  rwa [Value.zero_add] at hle

namespace Split

variable {split : Split} {c : Condition} {P : Value → Prop} {range : Ends Value} {limit : Nat}
  {passed : List Value} {last : Value}

/-- A chain that stopped early is largest after one result, unless passing values add to it, and
then a chain up to the limit is larger still. -/
private theorem add_le_high (hlast : last ≤ range.high) {pass : Ends Value}
    (hpass : ∀ v ∈ passed, v ≤ pass.high) (hlen : passed.length ≤ limit) :
    add (total passed) last ≤ add (times pass.high limit) range.high ∨
      add (total passed) last ≤ last := by
  rcases le_total 0 pass.high with hpos | hneg
  · left
    exact add_le_add ((total_passed_le hpass).trans (times_le_times_right hpos hlen)) hlast
  · right
    exact zero_add_of_add ((total_passed_le hpass).trans (times_nonpos hneg _))

private theorem low_le_add (hlast : range.low ≤ last) {pass : Ends Value}
    (hpass : ∀ v ∈ passed, pass.low ≤ v) (hlen : passed.length ≤ limit) :
    add (times pass.low limit) range.low ≤ add (total passed) last ∨
      last ≤ add (total passed) last := by
  rcases le_total 0 pass.low with hpos | hneg
  · right
    exact add_of_zero_add ((times_nonneg hpos _).trans (le_total_passed hpass))
  · left
    refine add_le_add (le_trans ?_ (le_total_passed hpass)) hlast
    have hneg : pass.low.toInt ≤ 0 := hneg
    exact clamp_le_clamp (Int.mul_le_mul_of_nonpos_left hneg (Int.ofNat_le.mpr hlen))

/-- The sum of a chain lies in the range found for the chains of its target. -/
theorem mem_chain (hd : split.Divides c P) (hrange : ∀ v, P v → v ∈ range) {v : Value}
    (hv : c.ChainSum limit P v) : v ∈ split.chain limit range := by
  obtain ⟨passed, last, hpassed, hlast, hstops, rfl⟩ := hv
  obtain ⟨passing, failing⟩ := split
  obtain ⟨hpassing, hfailing⟩ := hd
  obtain ⟨hlow, hhigh⟩ := hrange last hlast
  have hpass (v : Value) (hv : v ∈ passed) : P v ∧ c.check v :=
    ⟨hpassed v hv, hstops.passes v hv⟩
  rw [total_concat]
  cases passing with
  | none =>
    -- nothing passes, so the chain is one failing result
    have hnil : passed = [] := List.eq_nil_iff_forall_not_mem.mpr fun v hv =>
      hpassing v (hpass v hv)
    have hfail : ¬c.check last := fun hc => hpassing last ⟨hlast, hc⟩
    obtain ⟨fail, rfl, hmem⟩ := hfailing.exists_mem ⟨hlast, hfail⟩
    rw [hnil, total_nil, Value.zero_add]
    exact hmem
  | some pass =>
    have hle (v : Value) (hv : v ∈ passed) : v ∈ pass := hpassing.2.2 v (hpass v hv)
    have hup := add_le_high hhigh (fun v hv => (hle v hv).2) hstops.length_le
    have hdown := low_le_add hlow (fun v hv => (hle v hv).1) hstops.length_le
    have hfull (hlen : passed.length = limit) :
        add (total passed) last ≤ add (times pass.high limit) range.high ∧
          add (times pass.low limit) range.low ≤ add (total passed) last := by
      rw [← hlen]
      exact ⟨add_le_add (total_passed_le fun v hv => (hle v hv).2) hhigh,
        add_le_add (le_total_passed fun v hv => (hle v hv).1) hlow⟩
    cases failing with
    | none =>
      have hc : c.check last := by
        by_contra hc
        exact hfailing last ⟨hlast, hc⟩
      have hends := hfull (hstops.ends.resolve_left (not_not_intro hc))
      exact ⟨hends.2, hends.1⟩
    | some fail =>
      simp only [chain, Ends.mem_def, le_max_iff, min_le_iff]
      rcases hstops.ends with hc | hlen
      · have hmem := hfailing.2.2 last ⟨hlast, hc⟩
        exact ⟨(hdown.imp_right fun h => hmem.1.trans h).symm,
          (hup.imp_right fun h => h.trans hmem.2).symm⟩
      · exact ⟨.inr (hfull hlen).2, .inr (hfull hlen).1⟩

theorem chainSum_of_fail {v : Value} (hv : P v ∧ ¬c.check v) : c.ChainSum limit P v :=
  ⟨[], v, by simp, hv.1, Condition.stops_nil.mpr (.inl hv.2), (total_singleton v).symm⟩

theorem chainSum_of_pass {v w : Value} (hv : P v ∧ c.check v) (hw : P w) :
    c.ChainSum limit P (add (times v limit) w) := by
  have hall (x : Value) (hx : x ∈ List.replicate limit v) : x = v := (List.mem_replicate.mp hx).2
  refine ⟨List.replicate limit v, w, fun x hx => hall x hx ▸ hv.1, hw, ?_, ?_⟩
  · have hlen : (List.replicate limit v).length = limit := List.length_replicate ..
    exact ⟨fun x hx => hall x hx ▸ hv.2, hlen.le, .inr hlen⟩
  · rw [total_concat, total_replicate]

/-- Both ends of the range found for the chains of a target are sums of chains. -/
theorem chainSum_chain (hd : split.Divides c P) (hlow : P range.low) (hhigh : P range.high) :
    c.ChainSum limit P (split.chain limit range).low ∧
      c.ChainSum limit P (split.chain limit range).high := by
  obtain ⟨passing, failing⟩ := split
  obtain ⟨hpassing, hfailing⟩ := hd
  cases passing with
  | none =>
    obtain ⟨fail, rfl, -⟩ := hfailing.exists_mem ⟨hlow, fun hc => hpassing _ ⟨hlow, hc⟩⟩
    exact ⟨chainSum_of_fail hfailing.1, chainSum_of_fail hfailing.2.1⟩
  | some pass =>
    have hpl : c.ChainSum limit P (add (times pass.low limit) range.low) :=
      chainSum_of_pass hpassing.1 hlow
    have hph : c.ChainSum limit P (add (times pass.high limit) range.high) :=
      chainSum_of_pass hpassing.2.1 hhigh
    cases failing with
    | none => exact ⟨hpl, hph⟩
    | some fail =>
      constructor
      · change c.ChainSum limit P (min fail.low (add (times pass.low limit) range.low))
        rcases min_choice fail.low (add (times pass.low limit) range.low) with h | h
        · rw [h]
          exact chainSum_of_fail hfailing.1
        · rw [h]
          exact hpl
      · change c.ChainSum limit P (max fail.high (add (times pass.high limit) range.high))
        rcases max_choice fail.high (add (times pass.high limit) range.high) with h | h
        · rw [h]
          exact chainSum_of_fail hfailing.2.1
        · rw [h]
          exact hph

end Split

end DiceExpr
