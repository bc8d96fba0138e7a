import Sluice.Proofs.Lower.Lowered
import Sluice.Proofs.Lower.Matching

/-!
# The code of an expression follows it

By induction on the expression, with its types: the code of every well typed
expression follows its evaluation (`simulates_expr`). The first operand of `and`
and `or` is taken for the result, so it has to be a truth value.
-/

namespace Sluice.Flow

open List Machine
open Typed (Arm Env Eval Expr LocalId Program)

variable {K : Layout} {S : Setting K} {scope bound held bound' : List LocalId} {env : Env}
  {objs : ObjectTypes} {s : State} {n : Nat} {p q p1 : Spot} {o : Operand Reg} {v : Value}

/-! ## Branches -/

section

variable {α : Type} {r : EStateM.Result Stop World α} {post : α → State → Prop}

/-- A run goes to a block that ends with a jump to where it goes on. -/
theorem Tracks.leg {q1 : Spot} (hi : i.step S.calls s = .goto l s)
    (hl : K.blocks[l]? = some p1.rest) (hq1 : q1.rest = [.jump meeting])
    (hmeeting : K.blocks[meeting]? = some q.rest)
    (hx : Tracks S p1.rest s r fun a is s' => is = q1.rest ∧ post a s') :
    Tracks S (i :: is) s r fun a is s' => is = q.rest ∧ post a s' := by
  refine .goto hi hl (hx.andThen ?_)
  rintro a _ s' ⟨rfl, hpost⟩
  rw [hq1]
  exact .goto rfl hmeeting (.done ⟨rfl, hpost⟩)

/-- A run goes another way or not. -/
theorem tracks_detour {enter x} (hcode : Code.detour enter x K p () q)
    (c : Bool) (henter : ∀ a b, (enter a b).step S.calls s = .goto (if c then a else b) s)
    (post : α → State → Prop)
    (hskip : c = false → Tracks S q.rest s r fun a is s' => is = q.rest ∧ post a s')
    (hx : ∀ p1 q1, c = true → x K p1 () q1 → p1.next = p.next →
      Tracks S p1.rest s r fun a is s' => is = q1.rest ∧ post a s') :
    Tracks S p.rest s r fun a is s' => is = q.rest ∧ post a s' := by
  obtain ⟨second, meeting, p1, q1, hp, hp1, hn1, hcode1, hq1, hmeeting, -⟩ := hcode
  rw [hp]
  cases c with
  | false => exact .goto (henter second meeting) hmeeting (hskip rfl)
  | true => exact .leg (henter second meeting) hp1 hq1 hmeeting (hx p1 q1 rfl hcode1 hn1)

/-- A run goes one of two ways. -/
theorem tracks_fork (hcode : Code.fork o x y K p () q)
    (post : α → State → Prop)
    (hx : ∀ p1 q1, (o.value s).isTrue = true → x K p1 () q1 → p.next ≤ p1.next →
      Tracks S p1.rest s r fun a is s' => is = q1.rest ∧ post a s')
    (hy : ∀ p1 q1, (o.value s).isTrue = false → y K p1 () q1 → p.next ≤ p1.next →
      Tracks S p1.rest s r fun a is s' => is = q1.rest ∧ post a s') :
    Tracks S p.rest s r fun a is s' => is = q.rest ∧ post a s' := by
  obtain ⟨yes, no, meeting, p1, q1, p2, q2, hp, hp1, hn1, hcode1, hq1, hp2, hn2, hcode2, hq2,
    hmeeting, -⟩ := hcode
  rw [hp]
  cases hc : (o.value s).isTrue with
  | true =>
    exact .leg (by simp only [Instr.step, hc, if_true]) hp1 hq1 hmeeting
      (hx p1 q1 hc hcode1 (Nat.le_of_eq hn1.symm))
  | false =>
    have hle : p.next ≤ p2.next := hn2 ▸ hn1 ▸ x.steady hcode1
    exact .leg (by simp only [Instr.step, hc]; rfl) hp2 hq2 hmeeting (hy p2 q2 hc hcode2 hle)

end

/-- A temporary is given the value of an expression. -/
theorem tracks_assign (hE : Simulates S scope bound E e)
    (hcode : (do Code.emit (.move dst (← E)) : Code Unit) K p () q)
    (hm : Meets S scope env objs s) (hdst : K.Temporary dst) (hle : dst ≤ p.next) :
    Tracks S p.rest s (e.eval S.calls env s.world) fun v is s' =>
      is = q.rest ∧ s'.get dst = v ∧ Frame K dst bound s s' := by
  obtain ⟨o, p1, hcode, hi, -⟩ := hcode
  refine (hE hcode hm).andThen ?_
  rintro v _ s1 ⟨⟨rfl, rfl, -, hframe⟩, -⟩
  rw [hi]
  refine .next rfl (.done ⟨rfl, get_set_self .., ?_⟩)
  exact (hframe.mono hle fun _ h => h).trans (.set_temp _ hdst Nat.le.refl)

/-- **Two ways to a value**, chosen by a condition. -/
theorem simulates_ifElse {info c a b}
    (he : (Expr.ifElse info c a b).WellTyped S.prog S.locals scope)
    (hd : Distinct scope (Expr.ifElse info c a b).binders)
    (hc : Simulates S scope c.binders (Code.ofExpr c) c)
    (ha : Simulates S scope a.binders (Code.ofExpr a) a)
    (hb : Simulates S scope b.binders (Code.ofExpr b) b) :
    Simulates S scope (Expr.ifElse info c a b).binders
      (Code.ofExpr (.ifElse info c a b)) (.ifElse info c a b) := by
  refine Simulates.of_core he hd fun hcode hm => ?_
  obtain ⟨o1, p1, hcode1, dst, p2, hdst, _, _, hfork, rfl, rfl⟩ := hcode
  have hle1 := Code.steady _ hcode1
  have hle2 := Code.steady _ hfork
  obtain ⟨rfl, hnext, hrest, -, htemp⟩ := hdst
  have hlt : p1.next < p2.next := hnext ▸ Nat.lt_succ_self _
  refine (hc hcode1 hm).bind ?_
  rintro v _ s1 - ⟨⟨rfl, rfl, -, hframe1⟩, objs1, -, hm1, -⟩
  rw [← hrest]
  refine (tracks_fork hfork (fun v s' => s'.get p1.next = v ∧
    Frame K p1.next (a.binders ++ b.binders) s1 s') ?_ ?_).mono ?_
  · intro p3 q3 htrue hcode3 hn3
    rw [if_pos htrue]
    refine (tracks_assign ha hcode3 hm1 htemp (Nat.le_trans (Nat.le_of_lt hlt) hn3)).mono ?_
    rintro v _ s' ⟨rfl, hv, hframe⟩
    exact ⟨rfl, hv, hframe.mono Nat.le.refl fun _ => mem_append_left _⟩
  · intro p3 q3 hfalse hcode3 hn3
    rw [if_neg (Bool.not_eq_true _ ▸ hfalse)]
    refine (tracks_assign hb hcode3 hm1 htemp (Nat.le_trans (Nat.le_of_lt hlt) hn3)).mono ?_
    rintro v _ s' ⟨rfl, hv, hframe⟩
    exact ⟨rfl, hv, hframe.mono Nat.le.refl fun _ => mem_append_right _⟩
  · rintro v _ s' ⟨rfl, hv, hframe⟩
    exact ⟨rfl, hv, .of_temp htemp (Nat.lt_of_lt_of_le hlt hle2), hframe1.append hframe hle1⟩

/-- **A second operand that is only evaluated if the first does not decide.** -/
theorem tracks_shortcut {lhs rhs} (hty : lhs.ty = .bool)
    (hl : Simulates S scope lhs.binders (Code.ofExpr lhs) lhs)
    (hr : Simulates S scope rhs.binders (Code.ofExpr rhs) rhs) (decided : Bool)
    {enter : Operand Reg → Label → Label → Instr Reg} (henter : ∀ o (s : State) a b,
      (enter o a b).step S.calls s = .goto (if (o.value s).isTrue != decided then a else b) s)
    (hcode : (do
      let lhs ← Code.ofExpr lhs
      let dst ← Code.temp .bool
      Code.emit (.move dst lhs)
      Code.detour (enter lhs) do Code.emit (.move dst (← Code.ofExpr rhs))
      return Operand.reg dst) K p o q) (hm : Meets S scope env objs s) :
    Tracks S p.rest s ((do
      let a ← lhs.eval S.calls env
      if a.isTrue != decided then rhs.eval S.calls env else return .bool decided : Eval Value)
        s.world)
      (Core K p.next q o held (lhs.binders ++ rhs.binders) s) := by
  obtain ⟨o1, p1, hcode1, dst, p2, hdst, _, p3, ⟨hi, hnext3⟩, _, _, hdetour, rfl, rfl⟩ := hcode
  have hle1 := Code.steady _ hcode1
  have hle3 := Code.steady _ hdetour
  obtain ⟨rfl, hnext, hrest, -, htemp⟩ := hdst
  have hlt : p1.next < p3.next := hnext3 ▸ hnext ▸ Nat.lt_succ_self _
  refine (hl hcode1 hm).bind ?_
  rintro v _ s1 - ⟨⟨rfl, rfl, hholds, hframe1⟩, objs1, -, hm1, hv⟩
  obtain ⟨b, hb⟩ := (hty ▸ hv).exists_bool
  have htrue : (Value.bool b).isTrue = b := by cases b <;> rfl
  let s2 := s1.set p1.next (.bool b)
  have hframe2 : ∀ bound, Frame K p1.next bound s1 s2 := fun _ =>
    .set_temp _ htemp Nat.le.refl
  have hvalue : o1.value s2 = .bool b :=
    (hholds.value_eq (hframe2 []) Nat.le.refl fun _ _ => not_mem_nil).trans hb
  have hm2 : Meets S scope env objs1 s2 := hm1.temps (hframe2 []) rfl
  rw [← hrest, hi, hb, htrue]
  refine .next (congrArg (fun v => Step.next (s1.set p1.next v)) hb)
    ((tracks_detour hdetour (b != decided) (fun x y => ?_)
      (fun v s' => s'.get p1.next = v ∧ Frame K p1.next rhs.binders s1 s') ?_ ?_).mono ?_)
  · rw [henter, hvalue, htrue]
  · intro hskip
    obtain rfl : b = decided := by simpa using hskip
    rw [hskip]
    exact .done ⟨rfl, get_set_self .., hframe2 _⟩
  · intro p4 q4 hgo hcode4 hn4
    rw [if_pos hgo]
    refine (tracks_assign hr hcode4 hm2 htemp (hn4 ▸ Nat.le_of_lt hlt)).mono ?_
    rintro v _ s' ⟨rfl, hv, hframe⟩
    exact ⟨rfl, hv, (hframe2 _).trans hframe⟩
  · rintro v _ s' ⟨rfl, hv, hframe⟩
    exact ⟨rfl, hv, .of_temp htemp (Nat.lt_of_lt_of_le hlt hle3), hframe1.append hframe hle1⟩

/-! ## Instructions that may stop -/

/-- A call goes on or stops as the called function does. -/
theorem tracks_call {ty r callee args} (ht : Code.temp ty K p r p1)
    (he : Code.emit (.call r callee args) K p1 () q) :
    Tracks S p.rest s
      (Typed.invoke S.calls (callee.value s) (args.map (·.value s)) s.world)
      (Core K p.next q (.reg r) held bound s) := by
  rw [Typed.invoke]
  split
  · rename_i v w hcall
    exact tracks_write ht he (by simp only [Instr.step, hcall])
  · rename_i w hcall
    obtain ⟨-, -, hrest, -⟩ := ht
    rw [← hrest, he.1]
    exact .halt (by simp only [Instr.step, hcall])

/-- A binary operator gives its value or traps. -/
theorem tracks_binary {ty r op a b} (ht : Code.temp ty K p r p1)
    (he : Code.emit (.binary op r a b) K p1 () q) :
    Tracks S p.rest s (Typed.applyBinary op (a.value s) (b.value s) s.world)
      (Core K p.next q (.reg r) held bound s) := by
  rw [Typed.applyBinary]
  split
  · rename_i v happly
    exact tracks_write ht he (by simp only [Instr.step, happly])
  · rename_i happly
    obtain ⟨-, -, hrest, -⟩ := ht
    rw [← hrest, he.1]
    exact .halt (by simp only [Instr.step, happly])

/-! ## Several expressions -/

/-- What the code of several expressions has done: its operands hold their values. -/
structure Cores (K : Layout) (n : Nat) (q : Spot) (os : List (Operand Reg))
    (held bound : List LocalId) (s : State) (vs : List Value) (is : List (Instr Reg))
    (s' : State) : Prop where
  rest : is = q.rest
  values : os.map (·.value s') = vs
  holds : ∀ o ∈ os, Holds K q.next held o
  frame : Frame K n bound s s'

/-- One value before others. -/
theorem Cores.cons {s1 s2 is is' os vs} (h : Core K n p1 o (scope ++ bound) bound s v is s1)
    (h' : Cores K p1.next q os (scope ++ bound') bound' s1 vs is' s2)
    (hd : Distinct scope (bound ++ bound')) (hn : n ≤ p1.next) (hq : p1.next ≤ q.next) :
    Cores K n q (o :: os) (scope ++ (bound ++ bound')) (bound ++ bound') s (v :: vs) is' s2 where
  rest := h'.rest
  values := by
    have hv := h.holds.value_eq h'.frame Nat.le.refl (Distinct.append.1 hd).2.2
    rw [map_cons, h'.values, hv, h.value]
  holds := by
    refine forall_mem_cons.2 ⟨h.holds.mono hq ?_, fun o ho => (h'.holds o ho).mono
      Nat.le.refl ?_⟩ <;>
    · simp only [mem_append]
      tauto
  frame := h.frame.append h'.frame hn

theorem numbered_map_value (os : List (Operand Reg)) :
    Typed.numbered (os.map (·.value s)) = (indexed os).map fun x => (x.1, x.2.value s) := by
  simp only [Typed.numbered, indexed, zipIdx_map, map_map]
  rfl

theorem mem_of_mem_indexed {os x} (hx : x ∈ indexed os) : x.2 ∈ os := by
  obtain ⟨y, hy, rfl⟩ := mem_map.1 hx
  exact fst_mem_of_mem_zipIdx hy

/-- A call of a function by its name, once its arguments are there. -/
theorem tracks_direct {ty symbol args} (hargs : ∀ {os q}, Code.ofList args K p os q →
      Tracks S p.rest s (Expr.evalList S.calls env args s.world)
        (Cores K p.next q os (scope ++ bound) bound s)) (hcode : (do
      let args ← Code.ofList args
      let r ← Code.temp ty
      Code.emit (.call r (.direct symbol) args)
      return Operand.reg r) K p o q) :
    Tracks S p.rest s ((do
      let values ← Expr.evalList S.calls env args
      Typed.invoke S.calls (.function symbol) values : Eval Value) s.world)
      (Core K p.next q o (scope ++ bound) bound s) := by
  obtain ⟨os, p1, hcode1, r, p2, ht, _, _, hemit, rfl, rfl⟩ := hcode
  refine (hargs hcode1).bind ?_
  rintro _ _ s1 - ⟨rfl, rfl, -, hframe⟩
  exact (tracks_call ht hemit).mono fun _ _ _ h => h.after hframe
    (Code.steady _ hcode1)

theorem Follows.mono {E e} (h : Follows S scope bound E e)
    (hb : ∀ id ∈ bound, id ∈ bound') : Follows S scope bound' E e :=
  h.imp fun _ h => ⟨fun id hid => hb id (h.1 id hid), h.2⟩

/-- An arm before others. -/
theorem ArmsFollow.cons {a arms guard body guards bodies}
    (ha : ArmFollows S scope bound a guard body)
    (h : ArmsFollow S scope bound' arms guards bodies)
    (hb : ∀ id ∈ bound', id ∈ bound) :
    ArmsFollow S scope bound (a :: arms) (guard :: guards)
      (body :: bodies) := by
  intro i a' ha'
  cases i with
  | zero =>
    obtain rfl := Option.some.inj ha'
    exact ⟨body, rfl, ha⟩
  | succ i =>
    obtain ⟨body', hbody', hnames, hguard, hfollows⟩ := h i a' ha'
    refine ⟨body', hbody', fun id hid => hb id (hnames id hid), ?_, hfollows.mono hb⟩
    rw [getElem?_cons_succ]
    cases hg : guards[i]?.join <;> cases hg' : a'.guard <;> rw [hg, hg'] at hguard
    · trivial
    · exact hguard
    · exact hguard
    · exact Follows.mono hguard hb

/-! ## The induction -/

mutual

/-- **The code of a well typed expression follows it.** -/
theorem simulates_expr : ∀ {e scope},
    e.WellTyped S.prog S.locals scope → Distinct scope e.binders →
    Simulates S scope e.binders (Code.ofExpr e) e
  | .literal _ _, _, he, hd => .of_core he hd fun hcode hm => by
    obtain ⟨rfl, rfl⟩ := hcode
    exact .done ⟨rfl, rfl, trivial, .refl⟩
  | .var _ id, _, he, hd => .of_core he hd fun hcode hm => by
    obtain ⟨r, _, ⟨hr, rfl⟩, rfl, rfl⟩ := hcode
    obtain ⟨r', hr', hv⟩ := hm.agrees id he.1
    obtain rfl := Option.some.inj (hr.symm.trans hr')
    exact .done ⟨rfl, hv, .inr ⟨id, mem_append_left _ he.1, hr⟩, .refl⟩
  | .function _ name, _, he, hd => .of_core he hd fun hcode hm => by
    obtain ⟨r, p1, ht, _, p2, hemit, rfl, rfl⟩ := hcode
    exact tracks_write ht hemit rfl
  | .letIn info id value body, _, he, hd =>
    .of_core he hd fun hcode hm => by
    obtain ⟨hlocal, -, hvalue, hbody⟩ := he
    obtain ⟨o1, p1, hcode1, dst, p2, ⟨hdst, hle2, hrest2⟩, _, p3, ⟨hi, hnext3⟩, hcode2⟩ := hcode
    obtain ⟨hd1, hd2⟩ := hd.split
    have hle1 := Code.steady _ hcode1
    refine (simulates_expr hvalue hd1 hcode1 hm).bind ?_
    rintro v _ s1 - ⟨⟨rfl, rfl, -, hframe1⟩, objs1, -, hm1, hv⟩
    rw [← hrest2, hi]
    refine .next rfl ((simulates_expr hbody (Distinct.cons.1 hd2).2 hcode2
      ⟨hm1.agrees.bind S.apart hdst _, hm1.suits.update hlocal hv, hm1.heap⟩).mono ?_)
    rintro v is s2 ⟨⟨hrest, hv, hholds, hframe2⟩, -⟩
    refine ⟨hrest, hv, hholds.mono Nat.le.refl ?_, ?_⟩
    · simp only [Expr.binders, mem_append, mem_cons]
      tauto
    · exact hframe1.append ((Frame.set_local _ S.apart hdst mem_cons_self).trans
        (hframe2.mono (hnext3 ▸ hle2) fun _ => mem_cons_of_mem _)) hle1
  | .block info items, _, he, hd => .of_core he hd fun hcode hm =>
    tracks_block he.2 hd hcode hm trivial fun _ h => h
  | .ifThen info c a, _, he, hd => .of_core he hd fun hcode hm => by
    obtain ⟨o1, p1, hcode1, _, _, hdetour, rfl, rfl⟩ := hcode
    obtain ⟨hd1, hd2⟩ := hd.split
    have hle1 := Code.steady _ hcode1
    refine (simulates_expr he.2.2.2.1 hd1 hcode1 hm).bind ?_
    rintro v _ s1 - ⟨⟨rfl, rfl, -, hframe1⟩, objs1, -, hm1, -⟩
    refine (tracks_detour hdetour (o1.value s1).isTrue (fun _ _ => rfl)
      (fun v s' => v = .unit ∧ Frame K p1.next a.binders s1 s') ?_ ?_).mono ?_
    · intro hfalse
      rw [hfalse]
      exact .done ⟨rfl, rfl, .refl⟩
    · rintro p2 q2 htrue ⟨o2, _, hcode2, -, rfl⟩ hn2
      rw [htrue]
      refine (simulates_expr he.2.2.2.2 hd2 hcode2 hm1).bind ?_
      rintro v _ s2 - ⟨⟨rfl, rfl, -, hframe2⟩, -⟩
      exact .done ⟨rfl, rfl, hn2 ▸ hframe2⟩
    · rintro v _ s2 ⟨rfl, rfl, hframe2⟩
      exact ⟨rfl, rfl, trivial, hframe1.append hframe2 hle1⟩
  | .ifElse info c a b, _, he, hd =>
    have ⟨hd1, hd2⟩ := hd.split
    simulates_ifElse he hd (simulates_expr he.2.2.2.1 hd1)
      (simulates_expr he.2.2.2.2.1 hd2.split.1) (simulates_expr he.2.2.2.2.2 hd2.split.2)
  | .record info name fields, _, he, hd => .of_core he hd fun hcode hm => by
    obtain ⟨-, r, -, -, hfields⟩ := he
    obtain ⟨xs, p1, hcode1, hcode2⟩ := hcode
    refine (tracks_fields hfields hd hcode1 hm).bind ?_
    rintro _ _ s1 - ⟨rfl, ⟨rfl, -, hholds, hframe⟩⟩
    exact (tracks_object hcode2 fun x hx => hholds _ (mem_map_of_mem hx)).mono
      fun _ _ _ h => h.after hframe (Code.steady _ hcode1)
  | .field info target name index, _, he, hd =>
    .of_core he hd fun hcode hm => by
    obtain ⟨o1, p1, hcode1, object, p2, hobject, r, p3, ht, _, _, hemit, rfl, rfl⟩ := hcode
    have hle1 := Code.steady _ hcode1
    have hle2 := Code.steady _ hobject
    refine (simulates_expr he.2 hd hcode1 hm).bind ?_
    rintro v _ s1 - ⟨⟨rfl, rfl, hholds, hframe1⟩, -⟩
    refine (tracks_inRegister hobject hholds).seq ?_
    rintro _ s2 hw ⟨rfl, hv, -, hframe2⟩
    have hframe := hframe1.trans (hframe2.mono hle1 nofun)
    have hload : (Instr.load r object index).step S.calls s2 =
        .next (s2.set r (s2.world.heap.load (o1.value s1) index)) := by
      rw [← hv]
      rfl
    rw [← hw]
    exact (tracks_write ht hemit hload).mono fun _ _ _ h => h.after hframe (Nat.le_trans hle1 hle2)
  | .callFunction info symbol args, _, he, hd =>
    .of_core he hd fun hcode hm =>
      tracks_direct (fun hcode => tracks_list he.2 hd hcode hm) hcode
  | .callMethod info owner method symbol args, _, he, hd =>
    .of_core he hd fun hcode hm =>
      tracks_direct (fun hcode => tracks_list he.2.2.2 hd hcode hm) hcode
  | .callValue info callee args, _, he, hd =>
    .of_core he hd fun hcode hm => by
    obtain ⟨-, hcallee, hargs⟩ := he
    obtain ⟨o1, p1, hcode1, r1, p2, hregister, os, p3, hcode2, r, p4, ht, _, _, hemit, rfl, rfl⟩ :=
      hcode
    obtain ⟨hd1, hd2⟩ := hd.split
    have hle1 := Code.steady _ hcode1
    have hle2 := Code.steady _ hregister
    have hle3 := Code.steady _ hcode2
    refine (simulates_expr hcallee hd1 hcode1 hm).bind ?_
    rintro v _ s1 - ⟨⟨rfl, rfl, hholds, hframe1⟩, objs1, -, hm1, -⟩
    refine (tracks_inRegister hregister hholds).seq ?_
    rintro _ s2 hw ⟨rfl, hv2, hholds2, hframe2⟩
    rw [← hw]
    refine (tracks_list hargs hd2 hcode2 (hm1.temps hframe2 hw)).bind ?_
    rintro _ _ s3 - ⟨rfl, rfl, -, hframe3⟩
    have hv3 : s3.get r1 = o1.value s1 :=
      (hholds2.value_eq hframe3 Nat.le.refl (Distinct.append.1 hd).2.2).trans hv2
    have hframe := hframe1.append ((hframe2.mono Nat.le.refl nofun).trans
      (hframe3.mono hle2 fun _ h => h)) hle1
    rw [← hv3]
    exact (tracks_call ht hemit).mono fun _ _ _ h => h.after hframe
      (Nat.le_trans hle1 (Nat.le_trans hle2 hle3))
  | .cases info id scrutinee arms, _, he, hd =>
    have ⟨hd1, hd2⟩ := hd.split
    simulates_ofMatch he hd (simulates_expr he.1 hd1) (armsFollow he.2 hd2)
  | .list info elems, _, he, hd => .of_core he hd fun hcode hm => by
    obtain ⟨os, p1, hcode1, hcode2⟩ := hcode
    refine (tracks_list he.2 hd hcode1 hm).bind ?_
    rintro _ _ s1 - ⟨rfl, rfl, hholds, hframe⟩
    rw [numbered_map_value]
    exact (tracks_object hcode2 fun x hx => hholds _ (mem_of_mem_indexed hx)).mono
      fun _ _ _ h => h.after hframe (Code.steady _ hcode1)
  | .binary info op lhs rhs, _, he, hd => .of_core he hd @fun env _ _ _ _ _ hcode hm => by
    obtain ⟨hrule, hl, hr⟩ := he
    obtain ⟨hd1, hd2⟩ := hd.split
    have hlhs := simulates_expr hl hd1
    have hrhs := simulates_expr hr hd2
    by_cases hand : op = .and
    · subst hand
      have heval : (Expr.binary info .and lhs rhs).eval S.calls env = (do
          let a ← lhs.eval S.calls env
          if a.isTrue != false then rhs.eval S.calls env else return .bool false) := by
        exact bind_congr fun a => by cases a.isTrue <;> rfl
      rw [heval]
      refine tracks_shortcut hrule.1 hlhs hrhs false (fun o s _ _ => ?_) hcode hm
      rw [Instr.step]
      cases (o.value s).isTrue <;> rfl
    by_cases hor : op = .or
    · subst hor
      have heval : (Expr.binary info .or lhs rhs).eval S.calls env = (do
          let a ← lhs.eval S.calls env
          if a.isTrue != true then rhs.eval S.calls env else return .bool true) := by
        exact bind_congr fun a => by cases a.isTrue <;> rfl
      rw [heval]
      refine tracks_shortcut hrule.1 hlhs hrhs true (fun o s _ _ => ?_) hcode hm
      rw [Instr.step]
      cases (o.value s).isTrue <;> rfl
    rw [Code.ofExpr_binary hand hor] at hcode
    obtain ⟨o1, p1, hcode1, o2, p2, hcode2, r, p3, ht, _, _, hemit, rfl, rfl⟩ := hcode
    have hle1 := Code.steady _ hcode1
    have hle2 := Code.steady _ hcode2
    rw [Expr.eval_binary hand hor]
    refine (hlhs hcode1 hm).bind ?_
    rintro v _ s1 - ⟨⟨rfl, rfl, hholds, hframe1⟩, objs1, -, hm1, -⟩
    refine (hrhs hcode2 hm1).bind ?_
    rintro v _ s2 - ⟨⟨rfl, rfl, -, hframe2⟩, -⟩
    have hframe := hframe1.append hframe2 hle1
    rw [← hholds.value_eq hframe2 Nat.le.refl (Distinct.append.1 hd).2.2]
    exact (tracks_binary ht hemit).mono fun _ _ _ h => h.after hframe (Nat.le_trans hle1 hle2)
  | .unary info op operand, _, he, hd => .of_core he hd fun hcode hm => by
    obtain ⟨o1, p1, hcode1, r, p2, ht, _, _, hemit, rfl, rfl⟩ := hcode
    refine (simulates_expr he.2 hd hcode1 hm).bind ?_
    rintro v _ s1 - ⟨⟨rfl, rfl, -, hframe⟩, -⟩
    exact (tracks_write ht hemit rfl).mono fun _ _ _ h => h.after hframe
      (Code.steady _ hcode1)

/-- The code of several expressions follows them. -/
theorem tracks_list :
    ∀ {es scope env objs p q}
      {os s}, Expr.WellTypedList S.prog S.locals scope es →
      Distinct scope (Expr.listBinders es) → Code.ofList es K p os q →
      Meets S scope env objs s →
      Tracks S p.rest s (Expr.evalList S.calls env es s.world)
        (Cores K p.next q os (scope ++ Expr.listBinders es) (Expr.listBinders es) s)
  | [], _, _, _, _, _, _, _, _, _, hcode, _ => by
    obtain ⟨rfl, rfl⟩ := hcode
    exact .done ⟨rfl, rfl, nofun, .refl⟩
  | e :: rest, _, env, objs, p, _, _, s, he, hd, hcode, hm => by
    obtain ⟨o, p1, hcode1, os', _, hcode2, rfl, rfl⟩ := hcode
    obtain ⟨hd1, hd2⟩ := hd.split
    refine (simulates_expr he.1 hd1 hcode1 hm).bind ?_
    rintro v _ s1 - ⟨hcore, objs1, -, hm1, -⟩
    rw [hcore.rest]
    refine (tracks_list he.2 hd2 hcode2 hm1).bind ?_
    rintro vs is s2 - hcores
    exact .done (.cons hcore hcores hd (Code.steady _ hcode1) (Code.steady _ hcode2))

/-- The code of a block follows it. -/
theorem tracks_block :
    ∀ {es scope held env objs p q}
      {last o s}, Expr.WellTypedList S.prog S.locals scope es →
      Distinct scope (Expr.listBinders es) → Code.ofBlock last es K p o q →
      Meets S scope env objs s → Holds K p.next held last →
      (∀ id ∈ scope ++ Expr.listBinders es, id ∈ held) →
      Tracks S p.rest s (Expr.evalBlock S.calls env (last.value s) es s.world)
        (Core K p.next q o held (Expr.listBinders es) s)
  | [], _, _, _, _, _, _, _, _, _, _, _, hcode, _, hlast, _ => by
    obtain ⟨rfl, rfl⟩ := hcode
    exact .done ⟨rfl, rfl, hlast, .refl⟩
  | e :: rest, _, held, env, objs, p, _, _, _, s, he, hd, hcode, hm, _, hheld => by
    obtain ⟨o1, p1, hcode1, hcode2⟩ := hcode
    obtain ⟨hd1, hd2⟩ := hd.split
    have hle := Code.steady _ hcode1
    simp only [Expr.listBinders, mem_append] at hheld
    refine (simulates_expr he.1 hd1 hcode1 hm).bind ?_
    rintro v _ s1 - ⟨⟨rfl, rfl, hholds, hframe⟩, objs1, -, hm1, -⟩
    have hlast1 : Holds K p1.next held o1 := hholds.mono Nat.le.refl fun id hid =>
      hheld id ((mem_append.1 hid).imp_right .inl)
    refine (tracks_block he.2 hd2 hcode2 hm1 hlast1 fun id hid =>
      hheld id ((mem_append.1 hid).imp_right .inr)).mono ?_
    rintro v is s2 ⟨hrest, hv, hholds, hframe2⟩
    exact ⟨hrest, hv, hholds, hframe.append hframe2 hle⟩

/-- The code of field initializers follows them. -/
theorem tracks_fields {r} :
    ∀ {fields scope env objs}
      {p q xs s},
      Expr.WellTypedFields S.prog S.locals scope r fields →
      Distinct scope (Expr.fieldBinders fields) → Code.ofFields fields K p xs q →
      Meets S scope env objs s →
      Tracks S p.rest s (Expr.evalFields S.calls env fields s.world) fun vs is s' =>
        vs = xs.map (fun x => (x.1, x.2.value s')) ∧
        Cores K p.next q (xs.map (·.2)) (scope ++ Expr.fieldBinders fields)
          (Expr.fieldBinders fields) s (vs.map (·.2)) is s'
  | [], _, _, _, _, _, _, _, _, _, hcode, _ => by
    obtain ⟨rfl, rfl⟩ := hcode
    exact .done ⟨rfl, rfl, rfl, nofun, .refl⟩
  | ⟨_, _, index, e⟩ :: rest, _, env, objs, p, _, _, s, he, hd, hcode, hm => by
    obtain ⟨o, p1, hcode1, xs', _, hcode2, rfl, rfl⟩ := hcode
    obtain ⟨hd1, hd2⟩ := hd.split
    refine (simulates_expr he.2.1 hd1 hcode1 hm).bind ?_
    rintro v _ s1 - ⟨hcore, objs1, -, hm1, -⟩
    rw [hcore.rest]
    refine (tracks_fields he.2.2 hd2 hcode2 hm1).bind ?_
    rintro _ is s2 - ⟨rfl, hcores⟩
    have hall := Cores.cons hcore hcores hd (Code.steady _ hcode1)
      (Code.steady _ hcode2)
    have hv : o.value s2 = v := (List.cons.inj hall.values).1
    exact .done ⟨by rw [map_cons, hv], hall⟩

/-- The code of guards and bodies follows them. -/
theorem armsFollow :
    ∀ {arms scope},
      Expr.WellTypedArms S.prog S.locals scope ty result arms →
      Distinct scope (Expr.armBinders arms) →
      ArmsFollow S scope (Expr.armBinders arms) arms (Code.ofGuards arms)
        (Code.ofBodies arms)
  | [], _, _, _ => nofun
  | ⟨_, pattern, none, body⟩ :: rest, _, he, hd => by
    obtain ⟨-, -, hbody, hrest⟩ := he
    obtain ⟨hd1, hd2⟩ := Distinct.append.1 hd
    obtain ⟨hd2, hd3⟩ := hd2.split
    have hsim := simulates_expr hbody (hd2.mono (by simp [or_comm]))
    refine ArmsFollow.cons ⟨?_, trivial, body.binders, ?_, hsim⟩
      (armsFollow hrest (hd3.mono fun _ => mem_append_left _)) ?_ <;>
    · simp only [Expr.armBinders, mem_append]
      tauto
  | ⟨_, pattern, some guard, body⟩ :: rest, _, he, hd => by
    obtain ⟨-, -, -, hguard, hbody, hrest⟩ := he
    obtain ⟨hd1, hd2⟩ := Distinct.append.1 hd
    obtain ⟨hd2, hd3⟩ := hd2.split
    obtain ⟨hd3, hd4⟩ := hd3.split
    have hsim := simulates_expr hguard (hd2.mono (by simp [or_comm]))
    have hsim' := simulates_expr hbody (hd3.mono (by simp [or_comm]))
    refine ArmsFollow.cons ⟨?_, ⟨guard.binders, ?_, hsim⟩, body.binders, ?_, hsim'⟩
      (armsFollow hrest (hd4.mono fun _ => mem_append_left _)) ?_ <;>
    · simp only [Expr.armBinders, mem_append]
      tauto

end

end Sluice.Flow
