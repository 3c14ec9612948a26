import Mathlib
import Mlf.Proofs.NormalForm

/-!
# Normal forms as chains

Being in normal form is a property of whole chains of quantifiers: bounds are in normal form and no
monotypes, each variable is used in the rest of its chain, and the chain does not end in the
variable that it quantifies last. The recursion on types sees one quantifier at a time, and asks at
each of them what the chain asks at its end. The two notions are the same.

Main results:

* `isNormal_chain_iff` — what the recursive notion says about a chain;
* `normalChain_iff` — the two notions are the same;
* `normal_laws` — normalization gives normal forms, keeps instances and leaves exactly the normal
  forms alone.
-/

namespace Mlf

namespace Polytype

/-- Normal forms, one chain of quantifiers at a time. -/
inductive NormalChain : Polytype → Prop
  | unquantified {t : Polytype} (h : t.Unquantified) : NormalChain t
  | quantified {bs : List Binding} {body : Polytype} (hSome : bs ≠ []) (hBody : body.Unquantified)
    (hBounds : ∀ b ∈ bs, NormalChain b.bound.type)
    (hNotMono : ∀ b ∈ bs, b.bound.type.mono? = none)
    (hUsed : ∀ outer b inner, bs = outer ++ b :: inner → b.name ∈ (chain inner body).freeVars)
    (hLast : ∀ b, bs.getLast? = some b → body ≠ mono (.var b.name)) : NormalChain (chain bs body)

/-- The recursive notion asks of each quantifier what the notion on chains asks of the last one:
where a quantifier follows, it is not the variable itself that follows. -/
theorem isNormal_chain_iff {bs : List Binding} {body : Polytype} (hBody : body.Unquantified) :
    (chain bs body).IsNormal ↔
      (∀ b ∈ bs, b.bound.type.IsNormal) ∧ (∀ b ∈ bs, b.bound.type.mono? = none) ∧
      (∀ outer b inner, bs = outer ++ b :: inner → b.name ∈ (chain inner body).freeVars) ∧
      ∀ b, bs.getLast? = some b → body ≠ mono (.var b.name) := by
  induction bs with
  | nil => simpa using hBody.isNormal
  | cons c bs ih =>
    -- the variable itself can follow its quantifier only at the end of the chain
    have hEnd : chain bs body ≠ mono (.var c.name) ∧
        (∀ b, bs.getLast? = some b → body ≠ mono (.var b.name)) ↔
        ∀ b, (c :: bs).getLast? = some b → body ≠ mono (.var b.name) := by
      cases bs with
      | nil => simp
      | cons d bs => simp [List.getLast?_cons_cons]
    -- a quantifier of the longer chain is the new one or comes later
    have hRest : c.name ∈ (chain bs body).freeVars ∧
        (∀ outer b inner, bs = outer ++ b :: inner → b.name ∈ (chain inner body).freeVars) ↔
        ∀ outer b inner, c :: bs = outer ++ b :: inner →
          b.name ∈ (chain inner body).freeVars := by
      constructor
      · rintro ⟨hHere, hLater⟩ outer b inner hEq
        rcases List.cons_eq_append_iff.1 hEq with ⟨rfl, hHead⟩ | ⟨outer', rfl, hTail⟩
        · obtain ⟨rfl, rfl⟩ := List.cons.inj hHead
          exact hHere
        · exact hLater outer' b inner hTail
      · intro h
        exact ⟨h [] c bs rfl, fun outer b inner hEq => h (c :: outer) b inner (by rw [hEq]; rfl)⟩
    rw [chain_cons, IsNormal, ih, ← hEnd, ← hRest, List.forall_mem_cons, List.forall_mem_cons]
    tauto

/-- Normal forms of chains are the normal forms of the recursion. -/
theorem normalChain_iff {t : Polytype} : t.NormalChain ↔ t.IsNormal := by
  constructor
  · intro h
    induction h with
    | unquantified h => exact h.isNormal
    | quantified _ hBody _ hNotMono hUsed hLast ih =>
      exact (isNormal_chain_iff hBody).2 ⟨ih, hNotMono, hUsed, hLast⟩
  · intro h
    -- the bounds of a chain are no parts of it as a tree, but have fewer quantifiers
    induction hn : t.quantifiers using Nat.strong_induction_on generalizing t with
    | _ n ih =>
      have hBody := t.unquantified_split
      rw [← chain_split t] at h
      obtain ⟨hBounds, hNotMono, hUsed, hLast⟩ := (isNormal_chain_iff hBody).1 h
      rw [← chain_split t]
      rcases List.eq_nil_or_concat t.split.1 with hNil | ⟨bs, b, hSome⟩
      · rw [hNil]
        exact .unquantified hBody
      · refine .quantified (by simp [hSome]) hBody (fun b hb => ?_) hNotMono hUsed hLast
        have hLess := quantifiers_lt_weight hb
        rw [← chain_split t, quantifiers_chain] at hn
        exact ih _ (by omega) (hBounds b hb) rfl

/-- Normalization brings every type to a normal form with the same instances and no other free
variables. It leaves exactly the normal forms alone, so a second time it does nothing.
Quantification over bindings gives the normal form of their chain, and the quantifiers of the body
count as further bindings. The passes over a chain give its normal form, however deep they may go
beyond its quantifiers, and note a change exactly if it was none before. -/
theorem normal_laws (t : Polytype) :
    t.normal.NormalChain ∧ (∀ r, t.normal.Inst r = t.Inst r) ∧
    (∀ x ∈ t.normal.freeVars, x ∈ t.freeVars) ∧ t.normal.normal = t.normal ∧
    (t.normal = t ↔ t.NormalChain) ∧
    (∀ b bs, quantifyAll (b :: bs) t = normal (chain (b :: bs) t) ∧
      quantifyAll (b :: bs) t = quantifyAll (b :: bs ++ t.split.1) t.split.2) ∧
    ∀ n ≥ t.quantifiers, (normalizeChain n t.split.1 t.split.2).type = t.normal ∧
      ((normalizeChain n t.split.1 t.split.2).changed = false ↔ t.NormalChain) := by
  refine ⟨normalChain_iff.2 (isNormal_normal t), Inst_normal t, fun x hx => freeVars_normal hx,
    normal_eq_self.2 (isNormal_normal t), by rw [normal_eq_self, normalChain_iff],
    fun b bs => ⟨quantifyAll_cons b bs t, ?_⟩, fun n hn => ?_⟩
  · -- the body is the chain of its own quantifiers
    rw [List.cons_append, quantifyAll_cons, quantifyAll_cons, ← List.cons_append, chain_append,
      chain_split]
  · rw [ge_iff_le, ← chain_split t] at hn
    rw [normalizeChain_type t.unquantified_split hn, normalizeChain_changed t.unquantified_split hn,
      chain_split, normal_eq_normalizeWith, normalChain_iff]
    exact ⟨rfl, Iff.rfl⟩

/-- Where `b → b` takes the place of `a` in `∀ (a ≥ b → b) (b ≥ ∀ c. c → c). a → b`, the quantifier
over `b` is renamed, and the free `b` stays free. -/
theorem normal_laws_renamed : ∃ t u : Polytype,
    t = .all "a" .flexible (.mono (.fn (.var "b") (.var "b"))) (.all "b" .flexible
      (.all "c" .flexible .bottom (.mono (.fn (.var "c") (.var "c"))))
      (.mono (.fn (.var "a") (.var "b")))) ∧
    u = .all "b'1" .flexible (.all "c" .flexible .bottom (.mono (.fn (.var "c") (.var "c"))))
      (.mono (.fn (.fn (.var "b") (.var "b")) (.var "b'1"))) ∧
    t.normal = u ∧ u.NormalChain ∧ ¬ t.NormalChain ∧ "b" ∈ u.freeVars ∧ "b" ∈ t.freeVars ∧
    u.normal = u := by
  obtain ⟨t, u, ht, hu, hNormal, hUsed⟩ : ∃ t u : Polytype,
      t = .all "a" .flexible (.mono (.fn (.var "b") (.var "b"))) (.all "b" .flexible
        (.all "c" .flexible .bottom (.mono (.fn (.var "c") (.var "c"))))
        (.mono (.fn (.var "a") (.var "b")))) ∧
      u = .all "b'1" .flexible (.all "c" .flexible .bottom (.mono (.fn (.var "c") (.var "c"))))
        (.mono (.fn (.fn (.var "b") (.var "b")) (.var "b'1"))) ∧
      t.normal = u ∧ "b" ∈ u.freeVars := ⟨_, _, rfl, rfl, by cbv, by decide⟩
  -- normalizing has changed the type, so it was not in normal form
  have hne : u ≠ t := by
    subst ht hu
    decide
  obtain ⟨hChain, -, hFree, hTwice, hSelf, -⟩ := normal_laws t
  rw [hNormal] at hChain hFree hTwice hSelf
  exact ⟨t, u, ht, hu, hNormal, hChain, fun h => hne (hSelf.2 h), hUsed, hFree "b" hUsed, hTwice⟩

end Polytype

end Mlf
