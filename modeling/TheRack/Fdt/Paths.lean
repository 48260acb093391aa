/-
  Fdt/Paths.lean --- the node at a path.

  The names from the root down to a node lead along a path when each is the next
  component, up to a unit address.  `find_node` keeps one flag for each level, which
  says whether the names above the cursor lead along the path so far; so it finds
  the first node in pre-order whose names lead to the end of the path.
-/
import TheRack.Fdt.Forest

set_option autoImplicit false

namespace TheRack.Fdt

open Lib

/-- The names are those of the path, one by one, as far as they go. -/
def leadsAlong : List (List UInt8) → List (List UInt8) → Bool
  | [], _ => true
  | _ :: _, [] => false
  | name :: names, component :: path => nameMatches name component && leadsAlong names path

/-- The same for names that start with the root's, which has none. -/
def onWay (path : List (List UInt8)) : List (List UInt8) → Bool
  | [] => true
  | root :: names => decide (root = []) && leadsAlong names path

/-- The names from the root down to a node. -/
def namesOf (v : Visit Above Label) : List (List UInt8) := v.context.names ++ [v.label.name]

/-- The names of the node lead to the end of the path. -/
def isAt (path : List (List UInt8)) (v : Visit Above Label) : Bool :=
  onWay path (namesOf v) && decide ((namesOf v).length = path.length + 1)

/-- The first node at the path. -/
def nodeAt (path : List (List UInt8)) (root : Forest Label) : Option (Visit Above Label) :=
  (root.visits Above.down outside).find? (isAt path)

section Steps

variable {σ α : Type} {body : σ → Step → Except Crash (σ ⊕ α)} {s s' : σ} {step : Step}

theorem overSteps_stay (h : body s step = .ok (.inl s')) (steps : List Step) :
    overSteps body (step :: steps) s = overSteps body steps s' := by
  rw [overSteps, h]
  rfl

theorem overSteps_leave {a : α} (h : body s step = .ok (.inr a)) (steps : List Step) :
    overSteps body (step :: steps) s = .ok (.inr a) := by
  rw [overSteps, h]
  rfl

/-- A body that has no use for properties. -/
theorem overSteps_properties (h : ∀ name value, body s (.property name value) = .ok (.inl s))
    (properties : List (List UInt8 × List UInt8)) (steps : List Step) :
    overSteps body (properties.map (fun property => .property property.1 property.2) ++ steps) s =
      overSteps body steps s := by
  induction properties with
  | nil => rfl
  | cons property properties ih => exact (overSteps_stay (h _ _) _).trans ih

end Steps

section Find

variable {m : View} {b : Blob} {path : List UInt8} {names : List (List UInt8)}

theorem leadsAlong_concat (name : List UInt8) (names path : List (List UInt8)) :
    leadsAlong (names ++ [name]) path =
      match path[names.length]? with
      | some component => leadsAlong names path && nameMatches name component
      | none => false := by
  induction names generalizing path with
  | nil =>
    cases path with
    | nil => rfl
    | cons component path => simp [leadsAlong]
  | cons first names ih =>
    cases path with
    | nil => rfl
    | cons component path =>
      rw [List.cons_append, leadsAlong, ih path, List.length_cons, List.getElem?_cons_succ]
      cases path[names.length]? with
      | none => exact Bool.and_false _
      | some component' => simp only [leadsAlong, Bool.and_assoc]

/-- The flag for the level above is all that is needed of the names above a node. -/
theorem matched_eq {onPath : Fin maxDepth → Bool} (d : Fin maxDepth) (v : Visit Above Label)
    (hd : d.val = v.context.names.length)
    (hflag : onPath d = onWay (components path) v.context.names) :
    Blob.matched path onPath (nodeOf v) v.label.name = .ok (onWay (components path) (namesOf v)) := by
  unfold Blob.matched namesOf
  cases hnames : v.context.names with
  | nil =>
    have hdepth : (nodeOf v).depth = 1 := congrArg (fun l => l.length + 1) hnames
    simp [hdepth, onWay, leadsAlong]
  | cons first names =>
    rw [hnames] at hflag hd
    have hdepth : (nodeOf v).depth = names.length + 2 := congrArg (fun l => l.length + 1) hnames
    have hlevel : level (names.length + 2 - 1) = .ok d := by
      rw [List.length_cons] at hd
      rw [level_ok (by have := d.isLt; omega)]
      exact congrArg Except.ok (Fin.ext (by simp only; omega))
    have hsub : sub64 (names.length + 2) 2 = .ok names.length := sub64_ok (Nat.le_add_left _ _)
    rw [hdepth, if_neg (by omega), hsub, List.cons_append, onWay, leadsAlong_concat]
    simp only [bind, Except.bind]
    cases (components path)[names.length]? with
    | none => simp [pure, Except.pure]
    | some component =>
      simp only [hlevel, hflag, onWay, Bool.and_assoc]
      rfl

theorem findTurn_eq {onPath : Fin maxDepth → Bool} (d d' : Fin maxDepth) (v : Visit Above Label)
    (hd : d.val = v.context.names.length) (hd' : d'.val = v.context.names.length + 1)
    (hflag : onPath d = onWay (components path) v.context.names) :
    Blob.findTurn path onPath (.node (nodeOf v) v.label.name) =
      .ok (if isAt (components path) v then .inr (nodeOf v)
        else .inl (Function.update onPath d' (onWay (components path) (namesOf v)))) := by
  have hdepth : (nodeOf v).depth = (namesOf v).length := by simp [nodeOf, namesOf]
  have hlevel : level (namesOf v).length = .ok d' := by
    have hlen : (namesOf v).length = v.context.names.length + 1 := by simp [namesOf]
    rw [level_ok (by omega)]
    exact congrArg Except.ok (Fin.ext (hlen.trans hd'.symm))
  unfold Blob.findTurn isAt
  simp only [matched_eq d v hd hflag, hdepth, hlevel, bind, Except.bind, Bool.and_eq_true,
    decide_eq_true_eq]
  split
  · rfl
  · rfl

/-- The loop of `find_node` over some trees: it leaves at the first node at the path, or has
kept the flags of the levels above. -/
theorem find_forest {forest : Forest Label} {above : Above} {onPath : Fin maxDepth → Bool}
    (d : Fin maxDepth) (hd : d.val = above.names.length)
    (hflag : onPath d = onWay (components path) above.names)
    (hheight : above.names.length + forest.height < maxDepth) :
    ∃ onPath' : Fin maxDepth → Bool, (∀ i : Fin maxDepth, i.val ≤ above.names.length →
      onPath' i = onPath i) ∧ ∀ steps,
        overSteps (Blob.findTurn path) (treeSteps above forest ++ steps) onPath =
          match (forest.visits Above.down above).find? (isAt (components path)) with
          | some v => .ok (.inr (nodeOf v))
          | none => overSteps (Blob.findTurn path) steps onPath' := by
  induction forest generalizing above onPath d with
  | nil => exact ⟨onPath, fun _ _ => rfl, fun _ => rfl⟩
  | tree label children rest ihc ihr =>
    unfold Forest.height at hheight
    obtain ⟨d', hd'⟩ : ∃ d' : Fin maxDepth, d'.val = above.names.length + 1 :=
      ⟨⟨above.names.length + 1, by omega⟩, rfl⟩
    have hturn := findTurn_eq d d' ⟨above, label, children⟩ hd hd' hflag
    let flags := Function.update onPath d' (onWay (components path) (above.names ++ [label.name]))
    have hnames : (above.down label).names = above.names ++ [label.name] := rfl
    obtain ⟨flags₁, hflags₁, hchildren⟩ := @ihc (above.down label) flags d' (by simp [hnames, hd'])
      (Function.update_self _ _ _) (by rw [hnames, List.length_append, List.length_singleton]; omega)
    have hsame : ∀ i : Fin maxDepth, i.val ≤ above.names.length → flags₁ i = onPath i := by
      intro i hi
      rw [hflags₁ i (by rw [hnames, List.length_append, List.length_singleton]; omega)]
      exact Function.update_of_ne (fun heq => by omega) _ _
    obtain ⟨flags₂, hflags₂, hrest⟩ := @ihr above flags₁ d hd
      ((hsame d (Nat.le_of_eq hd)).trans hflag) (by omega)
    refine ⟨flags₂, fun i hi => (hflags₂ i hi).trans (hsame i hi), fun steps => ?_⟩
    rw [treeSteps_tree, List.append_assoc, List.append_assoc, Forest.visits_tree, List.find?_cons,
      List.find?_append]
    unfold stepsOf
    rw [List.cons_append]
    cases hat : isAt (components path) ⟨above, label, children⟩ with
    | true =>
      rw [hat] at hturn
      exact overSteps_leave hturn _
    | false =>
      rw [hat] at hturn
      refine (overSteps_stay hturn _).trans ?_
      refine (overSteps_properties (fun _ _ => rfl) _ _).trans ((hchildren _).trans ?_)
      cases (children.visits Above.down (above.down label)).find? (isAt (components path)) with
      | some v => rfl
      | none => exact hrest steps

/-- `find_node` returns the first node whose names lead to the end of the path. -/
theorem TreeLies.findNode (h : Sound m b) {root : Forest Label} (htree : TreeLies m b root)
    (path : List UInt8) :
    b.findNode m path = .ok ((nodeAt (components path) root).map nodeOf) := by
  obtain ⟨flags, -, hloop⟩ := @find_forest path root outside (fun d => decide (d.val = 0))
    ⟨0, Nat.succ_pos 15⟩ rfl rfl (Nat.zero_add _ ▸ htree.height_lt)
  have hscan := hloop []
  rw [List.append_nil] at hscan
  unfold Blob.findNode
  rw [h.scan_steps (htree.reports h), hscan]
  unfold nodeAt
  cases (root.visits Above.down outside).find? (isAt (components path)) with
  | some v => rfl
  | none => rfl

end Find

end TheRack.Fdt
