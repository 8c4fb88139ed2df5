/-
How often a datum is reported.

The callback of a datum is run where the datum ends, and at the end of a block that does
not end it.  So a block that ends nothing that is open reports each datum in one piece.

* `portions_httpParserExecute` — such a call makes at most as many callbacks with data as
  data end in it.
-/
import AsyncServer.ParserBlocks

namespace Server

open Transition Pieces

namespace ParserLib

variable {S : Settings} {P : Parser} {R R₁ : Run} {ch : UInt8} {bs : Bytes}
variable {d : Datum} {xs ys : Stream} {es es' : List Event}

/-- A callback with data. -/
def Event.hasData : Event → Bool
  | .data _ _ => true
  | _ => false

/-- The number of callbacks with data. -/
def portions (es : List Event) : ℕ := es.countP Event.hasData

/-- An end of a datum. -/
def isCut : Item Datum UInt8 Milestone → Bool
  | .mark (.cut _) => true
  | _ => false

/-- The number of ends of data. -/
def cuts (xs : Stream) : ℕ := xs.countP isCut

@[simp] theorem portions_nil : portions [] = 0 := rfl

@[simp] theorem portions_append : portions (es ++ es') = portions es + portions es' :=
  List.countP_append

@[simp] theorem cuts_nil : cuts [] = 0 := rfl

@[simp] theorem cuts_append : cuts (xs ++ ys) = cuts xs + cuts ys := List.countP_append

theorem cuts_join : cuts (join xs) = cuts xs := countP_join (fun _ _ => rfl) xs

theorem cuts_congr (h : join xs = join ys) : cuts xs = cuts ys := by
  rw [← cuts_join, h, cuts_join]

@[simp] theorem cuts_piece (x : Bytes) : cuts (piece S d x) = 0 := by
  unfold piece
  split_ifs <;> rfl

@[simp] theorem cuts_whole (x : Bytes) : cuts (piece S d x ++ cut S d) =
    if S.data d then 1 else 0 := by
  rw [cuts_append, cuts_piece, Nat.zero_add]
  unfold cut
  split_ifs <;> rfl

/-! ### The callbacks of a run -/

theorem portions_callback (s : State) (x : Bytes) :
    portions (R.callback S d s x).events ≤ portions R.events + cuts (cut S d) := by
  cases hmark : R.marks d with
  | none =>
    rw [callback_of_none hmark]
    exact Nat.le_add_right _ _
  | some buf =>
    rw [callback_of_some hmark, portions_append]
    refine Nat.add_le_add_left ?_ _
    unfold cut
    split_ifs <;> exact Nat.le_refl _

/-- An action makes a callback with data only where a datum ends. -/
theorem portions_act (a : Action) : portions (R.act S ch a).events ≤
    portions R.events + cuts (a.shows S ch) := by
  cases a with
  | mark d => exact Nat.le_add_right _ _
  | data d s => exact portions_callback s []
  | dataThrough d s =>
    refine (portions_callback s [ch]).trans (Nat.add_le_add_left ?_ _)
    simp [Action.shows, Action.adds]
  | notify n s =>
    have hnone : portions (if S.notify n then [Event.notify n] else []) = 0 := by
      split_ifs <;> rfl
    show portions (R.events ++ _) ≤ _
    rw [portions_append, hnone]
    exact Nat.le_add_right _ _
  | headersComplete m i j k =>
    have hnone : portions (if S.headersComplete then
        [Event.headersComplete m i j k R.stored] else []) = 0 := by
      split_ifs <;> rfl
    show portions (R.events ++ _) ≤ _
    rw [portions_append, hnone]
    exact Nat.le_add_right _ _

theorem portions_acts (as : List Action) : portions (R.acts S ch as).events ≤
    portions R.events + cuts (as.flatMap (Action.shows S ch)) := by
  induction as generalizing R with
  | nil => exact Nat.le_add_right _ _
  | cons a as ih =>
    rw [List.flatMap_cons, cuts_append, ← Nat.add_assoc]
    exact (ih (R := R.act S ch a)).trans (Nat.add_le_add_right (portions_act a) _)

/-- **One byte.** -/
theorem portions_step {r : Parser × Stream} (hR : R.parser.Sound)
    (ht : tick S R.parser ch = some r) (hstep : R.step S ch = some R₁) :
    portions R₁.events ≤ portions R.events + cuts r.2 := by
  obtain ⟨hok, hv, rfl⟩ := tick_eq_some.mp ht
  obtain ⟨-, -, rfl⟩ := step_eq_some.mp hstep
  have hsound : R.parser.next.Sound := (hR.next hok).1
  set t := turn R.parser.next ch [] with hturn
  have hadvance : t.advance = 0 := advance_turn hsound
  have hevents : (R.took S t ch []).events = (Run.acts S ch
      (t.before ++ t.last.actions) { R with parser := t.last.parser }).events := by
    unfold Run.took
    rw [hadvance]
    show (Run.acts S ch t.last.actions (Run.pass [] (Run.acts S ch t.before
      { R with parser := t.last.parser }))).events = _
    rw [pass_nil]
    simp only [Run.acts, List.foldl_append]
  show portions (R.took S t ch []).events ≤ _
  rw [hevents]
  refine (portions_acts _).trans (Nat.add_le_add_left ?_ _)
  rw [Turn.shows, cuts_append]
  exact Nat.le_add_right _ _

/-- Several bytes. -/
theorem portions_run {o : Option Datum} {r : Parser × Stream} (h : R.Fit o) (hR : R.parser.Sound)
    (ht : ticks S R.parser bs = some r) (hrun : run (Run.step S) bs R = some R₁) :
    portions R₁.events ≤ portions R.events + cuts r.2 := by
  induction bs generalizing R o r with
  | nil =>
    obtain rfl := Option.some_inj.mp ht
    obtain rfl := Option.some_inj.mp hrun
    exact Nat.le_add_right _ _
  | cons ch rest ih =>
    obtain ⟨r₁, htick, hmap⟩ := Option.bind_eq_some_iff.mp ht
    obtain ⟨r₂, hr₂, rfl⟩ := Option.map_eq_some_iff.mp hmap
    obtain ⟨R', hstep, hrest⟩ := run_cons_eq_some.mp hrun
    obtain ⟨R₂, o₁, hR₂, hparser, hfit, -⟩ := (h.step (S := S) hR _).1 r₁ htick
    obtain rfl : R' = R₂ := Option.some_inj.mp (hstep.symm.trans hR₂)
    have hlater := ih hfit (hR.step hstep) (by rw [hparser]; exact hr₂) hrest
    have hfirst := portions_step hR htick hstep
    rw [cuts_append]
    omega

/-- **A block that ends with nothing open** makes no more callbacks with data than there are
ends of data. -/
theorem portions_httpParserExecute {r : Parser × Stream} (hP : P.Sound) (hne : bs ≠ [])
    (hr : ticks S P bs = some r) (hopen : r.1.state.openDatum = none)
    (hbody : r.1.state.inBody = false) :
    portions (httpParserExecute S P bs).events ≤ cuts r.2 := by
  obtain ⟨R₁, o₁, hR₁, hparser, ⟨⟨x, hx⟩, hreads⟩, -⟩ :=
    (start_fit.run (S := S) hP bs).1 r hr
  have hportions := portions_run (start_fit (P := P)) hP hr hR₁
  rw [hparser] at hreads
  obtain rfl : o₁ = none := by
    rcases hreads with rfl | ⟨-, hin⟩
    · exact hopen
    · rw [hbody] at hin
      exact absurd hin (by decide)
  -- no mark is left over
  have hflush : (R₁.flush S).events = R₁.events := by
    have hmarks : ∀ d, R₁.marks d = none := fun d => by rw [hx d, if_neg (by simp)]
    simp only [Run.flush, Run.leftover, List.foldl_cons, List.foldl_nil,
      callback_of_none (hmarks _)]
  rw [httpParserExecute_eq_loop hP hne, loop_of_run (R := P.start) hP hR₁ hx.marked_le]
  show portions (R₁.flush S).events ≤ _
  rw [hflush]
  exact hportions.trans (Nat.le_of_eq (Nat.zero_add _))

end ParserLib

end Server
