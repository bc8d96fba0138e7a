import Mathlib.Data.List.ReduceOption
import Sluice.Proofs.Infer.Declare

/-!
# The bodies that get checked

Not every definition of a program has its body checked: a name that is taken
and a signature with an error keep it out of the queue. `turns` says for each
definition of a program, in order, what is queued for it. Declarations do not
look at bodies: programs that differ in bodies only (`SameHeads`) declare the
same things, and their turns differ in bodies only.
-/

namespace Sluice

open List
open Typed (Kind)

namespace Source

/-! ## Programs up to their bodies -/

/-- The definitions are the same but for the body. -/
def Definition.SameHead (d d' : Definition) : Prop :=
  d' = { d with body := d'.body }

/-- The items are the same but for the bodies of their definitions. -/
inductive Item.SameHeads : Item → Item → Prop
  | record {span : Span} {name : Ident} {fields : List (Named TypeExpr)} :
    Item.SameHeads (.record span name fields) (.record span name fields)
  | function {span : Span} {d d' : Definition} (h : d.SameHead d') :
    Item.SameHeads (.function span d) (.function span d')
  | methods {span : Span} {record : Ident} {defs defs' : List Definition}
    (h : List.Forall₂ Definition.SameHead defs defs') :
    Item.SameHeads (.methods span record defs) (.methods span record defs')

/-- The programs are the same but for the bodies of their definitions. -/
def Program.SameHeads (source source' : Program) : Prop :=
  List.Forall₂ Item.SameHeads source source'

/-- The programs are the same but for the body of one definition, the one with the given number
in their order. -/
structure Program.DifferAt (n : Nat) (source source' : Program) : Prop where
  heads : source.SameHeads source'
  others : ∀ m, m ≠ n → source.definitions[m]? = source'.definitions[m]?

end Source

namespace Infer

open Source (Definition Item Named TypeExpr Program)

/-! ## Turns -/

namespace Declared

/-- What a definition with a new name puts into the queue. -/
def task? (d : Declared) (kind : Kind) (definition : Definition) (receiver : List Ty) :
    Option Pending :=
  let (signature, sound, _) := d.signature definition receiver
  if sound then some ⟨definition, kind, definition.symbol kind, signature⟩ else none

/-- What a function puts into the queue. -/
def functionTurn (d : Declared) (definition : Definition) : Option Pending :=
  if (d.globals.function? definition.name.name).isSome then none
  else d.task? .free definition []

/-- What a method puts into the queue. -/
def methodTurn (d : Declared) (record : String) (definition : Definition) : Option Pending :=
  if ((d.globals.records.get? record).bind (·.method? definition.name.name)).isSome then none
  else d.task? (.method record definition.name.name) definition [.record record]

/-- What each method of a block puts into the queue. -/
def methodTurns (d : Declared) (record : String) : List Definition → List (Option Pending)
  | [] => []
  | m :: rest => d.methodTurn record m :: (d.declareMethod record m).methodTurns record rest

/-- What each definition of an item puts into the queue. -/
def itemTurns (d : Declared) : Item → List (Option Pending)
  | .record _ _ _ => []
  | .function _ definition => [d.functionTurn definition]
  | .methods _ record defs =>
    if d.globals.records.contains record.name then d.methodTurns record.name defs
    else defs.map fun _ => none

/-- What each definition of some items puts into the queue. -/
def turns (d : Declared) : List Item → List (Option Pending)
  | [] => []
  | item :: rest => d.itemTurns item ++ (d.declareItem item).turns rest

end Declared

/-- Declares the records of a program and their fields. -/
def declareAllRecords (source : Program) : Declared :=
  let (records, d) := Declared.declareRecords {} source
  records.foldl (fun d (name, fields) => d.declareFields name [] fields) d

/-- **The turns of a program:** for each of its definitions what is queued for it, if anything. -/
def turns (source : Program) : List (Option Pending) :=
  (declareAllRecords source).turns source

theorem declare_eq (source : Program) :
    declare source = source.foldl Declared.declareItem (declareAllRecords source) :=
  rfl

/-! ## The queue holds the turns -/

namespace Declared

variable {d d' : Declared}

/-- What a definition puts into the queue, as a function or as a method. -/
def turnAs (d : Declared) (kind : Kind) (definition : Definition) : Option Pending :=
  if d.isTaken kind definition.name.name then none
  else d.task? kind definition ((Source.receiver kind).map (·.2))

theorem pending_queue (d : Declared) (sound : Bool) (p : Pending) :
    (d.queue sound p).pending = d.pending ++ (if sound then some p else none).toList := by
  rw [queue]
  split
  · rfl
  · exact (append_nil _).symm

theorem pending_declareAs (d : Declared) (kind : Kind) (definition : Definition) :
    (d.declareAs kind definition).pending = d.pending ++ (d.turnAs kind definition).toList := by
  rw [declareAs, turnAs]
  simp only
  split
  · exact (append_nil _).symm
  · rw [pending_queue, task?]
    have hsig := d.signature_stays definition ((Source.receiver kind).map (·.2))
    exact congrArg (· ++ _) hsig.1.pending_eq

theorem pending_foldl_declareMethod (record : String) : ∀ (defs : List Definition) (d : Declared),
    (defs.foldl (fun d m => d.declareMethod record m) d).pending =
      d.pending ++ (d.methodTurns record defs).reduceOption
  | [], _ => (append_nil _).symm
  | m :: rest, d => by
    rw [foldl_cons, pending_foldl_declareMethod record rest, declareMethod_eq_declareAs,
      pending_declareAs, List.append_assoc, methodTurns]
    show _ ++ ((d.methodTurn record m).toList ++ _) = _
    cases d.methodTurn record m <;> rfl

theorem pending_declareItem (d : Declared) (item : Item) :
    (d.declareItem item).pending = d.pending ++ (d.itemTurns item).reduceOption := by
  cases item with
  | record => exact (append_nil _).symm
  | function _ definition =>
    rw [declareItem, declareFunction_eq_declareAs, pending_declareAs, itemTurns]
    show _ ++ (d.functionTurn definition).toList = _
    cases d.functionTurn definition <;> rfl
  | methods _ record defs =>
    rw [declareItem, itemTurns]
    split
    · exact pending_foldl_declareMethod record.name defs d
    · have hnone : ∀ defs : List Definition,
          (defs.map fun _ => (none : Option Pending)).reduceOption = [] := by
        intro defs
        induction defs with
        | nil => rfl
        | cons _ _ ih => exact ih
      rw [hnone, append_nil]
      rfl

theorem pending_foldl_declareItem : ∀ (items : List Item) (d : Declared),
    (items.foldl declareItem d).pending = d.pending ++ (d.turns items).reduceOption
  | [], _ => (append_nil _).symm
  | item :: rest, d => by
    rw [foldl_cons, pending_foldl_declareItem rest, pending_declareItem, List.append_assoc,
      turns, reduceOption_append]

end Declared

theorem pending_declareAllRecords (source : Program) : (declareAllRecords source).pending = [] :=
  ((Declared.declareRecords_stays source {}).trans
    (Declared.foldl_declareFields_stays _ _)).pending_eq

/-- The bodies that get checked are those that have a turn. -/
theorem pending_declare (source : Program) :
    (declare source).pending = (turns source).reduceOption := by
  rw [declare_eq, Declared.pending_foldl_declareItem, pending_declareAllRecords]
  rfl

/-! ## Each turn belongs to its definition -/

/-- A queued body is that of a definition, under its kind and symbol, with a type for each of its
parameters. -/
structure Pending.IsFor (kd : Kind × Definition) (p : Pending) : Prop where
  definition_eq : p.definition = kd.2
  kind_eq : p.kind = kd.1
  symbol_eq : p.symbol = kd.2.symbol kd.1
  arity_eq : p.signature.params.length = (Source.receiver kd.1).length + kd.2.params.length

/-- A turn of a definition. -/
def TurnOf (kd : Kind × Definition) (turn : Option Pending) : Prop :=
  ∀ p, turn = some p → p.IsFor kd

namespace Declared

theorem length_annotationTypes : ∀ (as : List TypeExpr) (d : Declared),
    (d.annotationTypes as).1.length = as.length
  | [], _ => rfl
  | a :: rest, d => congrArg (· + 1) (length_annotationTypes rest (d.annotationType a).2)

theorem length_signature (d : Declared) (definition : Definition) (receiver : List Ty) :
    (d.signature definition receiver).1.params.length =
      receiver.length + definition.params.length := by
  have hlen := length_annotationTypes (definition.params.map (·.value)) d
  rw [length_map] at hlen
  rw [signature]
  simp only [length_append, hlen]

theorem turnOf_task? (d : Declared) (definition : Definition)
    (h : receiver.length = (Source.receiver kind).length) :
    TurnOf (kind, definition) (d.task? kind definition receiver) := by
  intro p hp
  rw [task?] at hp
  simp only at hp
  split at hp
  · cases hp
    exact ⟨rfl, rfl, rfl, (length_signature d definition receiver).trans (by rw [h])⟩
  · cases hp

theorem turnOf_turnAs (d : Declared) (kind : Kind) (definition : Definition) :
    TurnOf (kind, definition) (d.turnAs kind definition) := by
  rw [turnAs]
  split
  · exact fun _ h => by cases h
  · exact turnOf_task? d definition (length_map _)

theorem turnsOf_methodTurns (record : String) : ∀ (defs : List Definition) (d : Declared),
    Forall₂ TurnOf (defs.map fun m => (.method record m.name.name, m))
      (d.methodTurns record defs)
  | [], _ => .nil
  | m :: rest, d =>
    .cons (turnOf_turnAs d (.method record m.name.name) m) (turnsOf_methodTurns record rest _)

theorem turnsOf_itemTurns (d : Declared) (item : Item) :
    Forall₂ TurnOf item.definitions (d.itemTurns item) := by
  cases item with
  | record => exact .nil
  | function _ definition => exact .cons (turnOf_turnAs d .free definition) .nil
  | methods _ record defs =>
    rw [itemTurns]
    split
    · exact turnsOf_methodTurns record.name defs d
    · rw [Item.definitions, forall₂_map_left_iff, forall₂_map_right_iff, forall₂_same]
      exact fun _ _ _ h => by cases h

theorem turnsOf_turns : ∀ (items : List Item) (d : Declared),
    Forall₂ TurnOf (items.flatMap Item.definitions) (d.turns items)
  | [], _ => .nil
  | item :: rest, d => by
    rw [flatMap_cons, turns]
    exact rel_append (turnsOf_itemTurns d item) (turnsOf_turns rest _)

end Declared

theorem turnsOf_definitions (source : Program) :
    Forall₂ TurnOf source.definitions (turns source) :=
  Declared.turnsOf_turns source _

/-! ## Declarations do not look at bodies -/

/-- The same has been declared, whatever the bodies. -/
structure Declared.Beside (d d' : Declared) : Prop where
  table_eq : d'.table = d.table
  globals_eq : d'.globals = d.globals
  errors_eq : d'.errors = d.errors

/-- The turns are the same but for the body. -/
def SameTask (turn turn' : Option Pending) : Prop :=
  Option.Rel (fun p p' => p.definition.SameHead p'.definition ∧
    p' = { p with definition := p'.definition }) turn turn'

namespace Declared

theorem Beside.refl (d : Declared) : Beside d d :=
  ⟨rfl, rfl, rfl⟩

theorem Beside.report (h : Beside d d') (span : Span) (fault : Fault) :
    Beside (d.report span fault) (d'.report span fault) :=
  ⟨h.table_eq, h.globals_eq, by rw [Declared.report, Declared.report, h.errors_eq]⟩

theorem Beside.withGlobals (h : Beside d d') (g : Globals) :
    Beside { d with globals := g } { d' with globals := g } :=
  ⟨h.table_eq, rfl, h.errors_eq⟩

theorem Beside.annotationType (h : Beside d d') (a : TypeExpr) :
    (d'.annotationType a).1 = (d.annotationType a).1 ∧
      Beside (d.annotationType a).2 (d'.annotationType a).2 := by
  rw [Declared.annotationType, Declared.annotationType, h.globals_eq, h.table_eq]
  split
  · exact ⟨rfl, rfl, rfl, h.errors_eq⟩
  · exact ⟨rfl, rfl, rfl, congrArg (· ++ _) h.errors_eq⟩

theorem Beside.annotationTypes : ∀ (as : List TypeExpr) {d d'}, Beside d d' →
    (d'.annotationTypes as).1 = (d.annotationTypes as).1 ∧
      Beside (d.annotationTypes as).2 (d'.annotationTypes as).2
  | [], _, _, h => ⟨rfl, h⟩
  | a :: rest, d, d', h => by
    obtain ⟨hty, h1⟩ := h.annotationType a
    obtain ⟨htys, h2⟩ := annotationTypes rest h1
    exact ⟨cons_eq_cons.2 ⟨hty, htys⟩, h2⟩

theorem Beside.signature (h : Beside d d') (hf : f.SameHead f') (receiver : List Ty) :
    (d'.signature f' receiver).1 = (d.signature f receiver).1 ∧
      (d'.signature f' receiver).2.1 = (d.signature f receiver).2.1 ∧
      Beside (d.signature f receiver).2.2 (d'.signature f' receiver).2.2 := by
  rw [hf, Declared.signature, Declared.signature, h.errors_eq]
  obtain ⟨htys, h1⟩ := annotationTypes (f.params.map (·.value)) h
  cases f.ret with
  | none =>
    simp only [htys, h1.table_eq, h1.errors_eq, true_and]
    exact ⟨rfl, h1.globals_eq, rfl⟩
  | some a =>
    obtain ⟨hty, h2⟩ := h1.annotationType a
    simp only [htys, hty, h2.errors_eq, true_and]
    exact h2

theorem Beside.queue (h : Beside d d') (sound : Bool) (p p' : Pending) :
    Beside (d.queue sound p) (d'.queue sound p') := by
  rw [Declared.queue, Declared.queue]
  split
  · exact ⟨h.table_eq, h.globals_eq, h.errors_eq⟩
  · exact h

theorem Beside.task? (h : Beside d d') (hf : f.SameHead f') (kind : Kind)
    (receiver : List Ty) : SameTask (d.task? kind f receiver) (d'.task? kind f' receiver) := by
  obtain ⟨hsig, hsound, -⟩ := h.signature hf receiver
  have hsymbol : f'.symbol kind = f.symbol kind := by rw [hf]; cases kind <;> rfl
  rw [Declared.task?, Declared.task?]
  simp only [hsig, hsound, hsymbol]
  split
  · exact .some ⟨hf, rfl⟩
  · exact .none

theorem Beside.declareAs (h : Beside d d') (kind : Kind)
    (hf : f.SameHead f') : SameTask (d.turnAs kind f) (d'.turnAs kind f') ∧
      Beside (d.declareAs kind f) (d'.declareAs kind f') := by
  obtain ⟨hsig, hsound, h1⟩ := h.signature hf ((Source.receiver kind).map (·.2))
  have hname : f'.name = f.name := by rw [hf]
  have htaken : d'.isTaken kind f.name.name = d.isTaken kind f.name.name := by
    simp only [isTaken, h.globals_eq]
  have hentered : ∀ g signature, entered g kind f' signature = entered g kind f signature := by
    intro g signature
    rw [hf]
    cases kind <;> rfl
  rw [turnAs, turnAs, Declared.declareAs, Declared.declareAs]
  simp only [hname, htaken]
  split
  · exact ⟨.none, h.report _ _⟩
  · refine ⟨h.task? hf kind _, ?_⟩
    rw [hsound, h1.globals_eq, hsig, hentered]
    exact (h1.withGlobals _).queue _ _ _

theorem Beside.declareMethods (record : String)
    (hdefs : Forall₂ Definition.SameHead defs defs') : ∀ {d d'}, Beside d d' →
    Forall₂ SameTask (d.methodTurns record defs) (d'.methodTurns record defs') ∧
      Beside (defs.foldl (fun d m => d.declareMethod record m) d)
        (defs'.foldl (fun d m => d.declareMethod record m) d') := by
  induction hdefs with
  | nil => exact fun h => ⟨.nil, h⟩
  | @cons f f' _ _ hf _ ih =>
    intro d d' h
    obtain ⟨body, rfl⟩ : ∃ body, f' = { f with body } := ⟨_, hf⟩
    obtain ⟨hturn, h1⟩ := h.declareAs (.method record f.name.name) hf
    obtain ⟨hturns, h2⟩ := ih h1
    exact ⟨.cons hturn hturns, h2⟩

theorem Beside.declareItem (h : Beside d d') (hitem : item.SameHeads item') :
    Forall₂ SameTask (d.itemTurns item) (d'.itemTurns item') ∧
      Beside (d.declareItem item) (d'.declareItem item') := by
  cases hitem with
  | record => exact ⟨.nil, h⟩
  | function hf =>
    obtain ⟨hturn, h1⟩ := h.declareAs .free hf
    exact ⟨.cons hturn .nil, h1⟩
  | methods hdefs =>
    rw [itemTurns, itemTurns, Declared.declareItem, Declared.declareItem, h.globals_eq]
    split
    · exact declareMethods _ hdefs h
    · refine ⟨?_, h.report _ _⟩
      rw [forall₂_map_left_iff, forall₂_map_right_iff]
      exact hdefs.imp fun _ _ _ => .none

theorem Beside.declareItems (hitems : Forall₂ Item.SameHeads items items') : ∀ {d d'}, Beside d d' →
    Forall₂ SameTask (d.turns items) (d'.turns items') ∧
      Beside (items.foldl Declared.declareItem d) (items'.foldl Declared.declareItem d') := by
  induction hitems with
  | nil => exact fun h => ⟨.nil, h⟩
  | cons hitem _ ih =>
    intro d d' h
    obtain ⟨hturns, h1⟩ := h.declareItem hitem
    obtain ⟨hrest, h2⟩ := ih h1
    exact ⟨rel_append hturns hrest, h2⟩

theorem declareRecords_of_sameHeads (hitems : Forall₂ Item.SameHeads items items') :
    ∀ d : Declared, d.declareRecords items' = d.declareRecords items := by
  induction hitems with
  | nil => exact fun _ => rfl
  | cons hitem _ ih =>
    intro d
    cases hitem with
    | record => simp only [declareRecords, ih]
    | function | methods => exact ih d

end Declared

variable {source source' : Program}

/-- **Programs with the same heads** declare the same, and their turns are the same but for the
bodies. -/
theorem declare_beside (h : source.SameHeads source') :
    Forall₂ SameTask (turns source) (turns source') ∧
      (declare source).Beside (declare source') := by
  have hrecords : declareAllRecords source' = declareAllRecords source := by
    rw [declareAllRecords, declareAllRecords, Declared.declareRecords_of_sameHeads h]
  rw [turns, turns, declare_eq, declare_eq, hrecords]
  exact Declared.Beside.declareItems h (.refl _)

/-! ## Changing one body -/

/-- Members with the same number are related. -/
theorem forall₂_getElem? {R : α → β → Prop}
    (h : Forall₂ R as bs) : ∀ n : Nat, Option.Rel R as[n]? bs[n]? := by
  induction h with
  | nil => exact fun _ => .none
  | cons hr _ ih =>
    intro n
    cases n with
    | zero => exact .some hr
    | succ n => exact ih n

/-- A definition that two programs share has the same turn in both. -/
theorem turns_getElem?_of_differAt (h : source.DifferAt n source') (hm : m ≠ n) :
    (turns source)[m]? = (turns source')[m]? := by
  have hdefs := h.others m hm
  have hleft := forall₂_getElem? (turnsOf_definitions source) m
  have hright := forall₂_getElem? (turnsOf_definitions source') m
  have hsame := forall₂_getElem? (declare_beside h.heads).1 m
  rw [← hdefs] at hright
  generalize source.definitions[m]? = kd at hleft hright
  generalize (turns source)[m]? = turn at hleft hsame ⊢
  generalize (turns source')[m]? = turn' at hright hsame ⊢
  rcases hsame with @⟨_, _, @⟨p, p', -, htask⟩ | -⟩ | -
  · -- both belong to the same definition, and only that could differ
    rcases hleft with ⟨hp⟩
    rcases hright with ⟨hp'⟩
    have hdefinition := (hp' p' rfl).definition_eq.trans (hp p rfl).definition_eq.symm
    rw [htask, hdefinition]
  · rfl
  · rfl

end Infer

end Sluice
