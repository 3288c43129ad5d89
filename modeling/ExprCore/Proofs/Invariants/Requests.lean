import ExprCore.Proofs.Invariants.Nodes

/-!
Whole runs under a discipline. What it says of good stores and trees holds at every moment of a run,
and from one request to the next.
-/

namespace ExprCore
set_option autoImplicit false

namespace Discipline

variable {W : Type} [Preorder W] {D : Discipline W} {w : W} {host : Host} {watch : Watch}
  {p : Moments} {i : Interpreter} {s : Store} {r : Request}

/-- Wherever the discipline is kept, `p` holds. -/
structure Vouches (D : Discipline W) (p : Moments) : Prop where
  before {w : W} {s : Store} {env : Env} {e : Expr} : D.good w s → D.tree w env e →
    p.before s env e
  after {w w' : W} {s s' : Store} {env : Env} {e : Expr} {v : Value} : D.good w s →
    D.tree w env e → w ≤ w' → D.good w' s' → D.result e w' v → p.after s env e v s'

/-- A request that keeps to the discipline, in a store. -/
def Admits (D : Discipline W) (i : Interpreter) (host : Host) (w : W) (s : Store) :
    Request → Prop
  | .run fuel e => D.tree w i.globals (i.prepare host fuel s e).value
  | .eval _ e => D.tree w i.globals e
  | .call _ _ args => ∀ v ∈ args, D.value w v

theorem keeps_watched (hD : D.Lawful) (hh : host.Honest D.value D.made) (hp : D.Vouches p)
    (hi : watch.Idle p) (n : Nat) {env : Env} {e : Expr} (ht : D.tree w env e) :
    D.Keeps w (D.result e) (evalWatched watch host n env e) (eval host n env e) := by
  induction n generalizing w env e with
  | zero => exact .halt rfl
  | succ n ih =>
    intro w₁ hw₁ s hs
    have ht := hD.tree_mono hw₁ ht
    have hf : D.Follows host (evalWatched watch host n) (eval host n) := ⟨hD, hh, fun h => ih h⟩
    obtain ⟨hsame, hlands⟩ := keeps_node hf ht w₁ le_rfl s hs
    have hwatched : evalWatched watch host (n + 1) env e s =
        (Machine.evalNode ⟨host, n, evalWatched watch host n⟩ env e >>= fun v =>
          watch.after s env e v >>= fun _ => pure v) s :=
      (Run.bind_ok _ rfl).trans (Run.bind_ok _ (hi.before (hp.before hs ht)))
    constructor
    · rw [hwatched, eval_succ]
      generalize hy : Machine.evalNode ⟨host, n, eval host n⟩ env e s = r at hsame hlands
      cases hlands with
      | ok hw hs' h =>
        rw [Run.bind_ok _ hsame]
        exact Run.bind_ok _ (hi.after (hp.after hs ht hw hs' h))
      | error hw hs' he => exact Run.bind_error _ hsame
    · exact hlands

/-- An answer under a watch that does nothing as long as the discipline is kept. -/
theorem keeps_answer (hD : D.Lawful) (hh : host.Honest D.value D.made) (hp : D.Vouches p)
    (hi : watch.Idle p) (hs : D.good w s) (hr : D.Admits i host w s r) :
    D.KeepsAt w D.value s (r.answerWatched i host watch) (r.answer i host) := by
  have htree {n : Nat} {e : Expr} (ht : D.tree w i.globals e) :
      D.Yields w (Run.catchReturn (evalWatched watch host n i.globals e))
        (Run.catchReturn (eval host n i.globals e)) :=
    Keeps.catchReturn hD ((keeps_watched hD hh hp hi n ht).weaken fun _ _ _ h => h.1)
  cases r with
  | run n e =>
    obtain ⟨hsame, hlands⟩ := htree (n := n) hr w le_rfl s hs
    exact ⟨hsame, hlands⟩
  | eval n e => exact htree hr w le_rfl s hs
  | call n f args =>
    have hf : D.Follows host (evalWatched watch host n) (eval host n) :=
      ⟨hD, hh, fun h => keeps_watched hD hh hp hi n h⟩
    exact keeps_call hf w f args hr w le_rfl s hs

/-- At every moment of an answer holds what the discipline vouches for. -/
theorem always (hD : D.Lawful) (hh : host.Honest D.value D.made) (hp : D.Vouches p)
    (hs : D.good w s) (hr : D.Admits i host w s r) : r.Always i host p s :=
  fun _ hi => (keeps_answer hD hh hp hi hs hr).same

theorem lands_answer (hD : D.Lawful) (hh : host.Honest D.value D.made) (hs : D.good w s)
    (hr : D.Admits i host w s r) : D.Lands w D.value (r.answer i host s) := by
  let idle : Watch := ⟨fun _ _ => pure (), fun _ _ _ _ => pure ()⟩
  let any : Moments := ⟨fun _ _ _ => True, fun _ _ _ _ _ => True⟩
  have hp : D.Vouches any := ⟨fun _ _ => trivial, fun _ _ _ _ _ => trivial⟩
  have hi : idle.Idle any := ⟨fun _ => rfl, fun _ => rfl⟩
  exact (keeps_answer hD hh hp hi hs hr).lands

/-- From one request to the next the store stays good, and so do the values that were handed out. -/
theorem session (hD : D.Lawful) (hh : host.Honest D.value D.made) (w₀ : W) {s₀ : Store}
    {known vs : List Value} {allowed : List Value → Request → Prop} (hs₀ : D.good w₀ s₀)
    (hknown : ∀ v ∈ known, D.value w₀ v)
    (hallowed : ∀ w s vs r, w₀ ≤ w → D.good w s → (∀ v ∈ vs, D.value w v) → allowed vs r →
      D.Admits i host w s r)
    (h : Session (fun r => r.answer i host) allowed s₀ known vs s) :
    ∃ w, w₀ ≤ w ∧ D.good w s ∧ ∀ v ∈ vs, D.value w v := by
  induction h with
  | start => exact ⟨w₀, le_rfl, hs₀, hknown⟩
  | answered r _ hr ha ih =>
    obtain ⟨w, hw, hs, hvs⟩ := ih
    have hlands := lands_answer hD hh hs (hallowed w _ _ r hw hs hvs hr)
    rw [ha] at hlands
    cases hlands with
    | ok hw' hs' hv =>
      refine ⟨_, hw.trans hw', hs', fun u hu => ?_⟩
      rcases List.mem_cons.mp hu with rfl | hu
      · exact hv
      · exact hD.value_mono hw' (hvs u hu)
  | failed r _ hr ha ih =>
    obtain ⟨w, hw, hs, hvs⟩ := ih
    have hlands := lands_answer hD hh hs (hallowed w _ _ r hw hs hvs hr)
    rw [ha] at hlands
    cases hlands with
    | error hw' hs' _ => exact ⟨_, hw.trans hw', hs', fun u hu => hD.value_mono hw' (hvs u hu)⟩

end Discipline

end ExprCore
