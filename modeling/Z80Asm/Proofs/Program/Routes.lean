import Z80Asm.Proofs.Program.Contexts

/-!
# How lines are reached through inclusions

A line that is read has the sites of the `INCLUDE` lines through which its text was reached,
innermost first, and each of these lines names the file of the one before. `Line.Reached` says so of
a single line. Of a source it is shown along the reader (`Origin.load_routed`): a text is read with
the chain of the line that includes it, and that line stands in the source in front of what it
splices in.

An `INCLUDE` line may compute the name of its file. Which file that came to is in the positions of
the lines that were read from it, and the route is told from there.
-/
set_option autoImplicit false

namespace Z80Asm

open Success

/-- A line of the text `main`, or of a file that is reached from there through these `INCLUDE` lines.
    The first of them names the file of the line. -/
inductive Line.Reached (library : Library) (main : Option String) : Line → List Line → Prop
  | directly {line : Line} (hfile : line.position.here.file = main)
      (houter : line.position.outer = []) : Reached library main line []
  | through {line site : Line} {path : String} {route : List Line}
      (hsite : site.Includes library path) (hroute : Reached library main site route)
      (hfile : line.position.here.file = some path)
      (houter : line.position.outer = site.position.chain) :
      Reached library main line (site :: route)

theorem Line.Reached.outer_eq {library : Library} {main : Option String} {line : Line}
    {route : List Line} (h : line.Reached library main route) :
    line.position.outer = route.map (·.position.here) := by
  induction h with
  | directly _ houter => exact houter
  | through _ _ _ houter ih => rw [houter, Position.chain, ih, List.map_cons]

theorem Line.Reached.withOperation {library : Library} {main : Option String} {line : Line}
    {route : List Line} (h : line.Reached library main route) (op : Option Operation) :
    Line.Reached library main { line with operation := op } route := by
  cases h with
  | directly hfile houter => exact .directly hfile houter
  | through hsite hroute hfile houter => exact .through hsite hroute hfile houter

section

variable {library : Library} {main file : Option String} {outer : List Site} {route : List Line}
  {line : Line} {lines others : List Line}

/-- The lines of a text in this file, read with these outer sites, are reached by the route. -/
def LeadsInto (library : Library) (main : Option String) (route : List Line) (file : Option String)
    (outer : List Site) : Prop :=
  ∀ line : Line, line.position.here.file = file → line.position.outer = outer →
    line.Reached library main route

/-- Behind the route, these lines are reached through lines among them. -/
def Routed (library : Library) (main : Option String) (route lines : List Line) : Prop :=
  ∀ line ∈ lines, ∃ inner, inner ⊆ lines ∧ line.Reached library main (inner ++ route)

theorem routed_nil : Routed library main route [] :=
  List.forall_mem_nil _

theorem Routed.append (h : Routed library main route lines) (h' : Routed library main route others) :
    Routed library main route (lines ++ others) := by
  intro line hline
  rcases List.mem_append.mp hline with hline | hline
  · obtain ⟨inner, hinner, hreached⟩ := h line hline
    exact ⟨inner, List.subset_append_of_subset_left _ hinner, hreached⟩
  · obtain ⟨inner, hinner, hreached⟩ := h' line hline
    exact ⟨inner, List.subset_append_of_subset_right _ hinner, hreached⟩

/-- What a line splices in is reached through it. -/
theorem Routed.spliced (h : Routed library main (line :: route) lines)
    (hline : line.Reached library main route) : Routed library main route (line :: lines) := by
  intro other hother
  rcases List.mem_cons.mp hother with rfl | hother
  · exact ⟨[], List.nil_subset _, hline⟩
  · obtain ⟨inner, hinner, hreached⟩ := h other hother
    refine ⟨inner ++ [line], ?_, ?_⟩
    · exact List.append_subset.mpr ⟨List.subset_cons_of_subset _ hinner, List.cons_subset.mpr
        ⟨List.mem_cons_self, List.nil_subset _⟩⟩
    · rwa [List.append_assoc]

theorem routed_singleton (hline : line.Reached library main route) :
    Routed library main route [line] :=
  routed_nil.spliced hline

theorem Library.Reads.routed {scope : ScopeId} {s t : Scopes} {items : List Item}
    (h : library.Reads file outer scope s items t) (hleads : LeadsInto library main route file outer) :
    Routed library main route (linesOf items) := by
  induction h generalizing route with
  | nil => exact routed_nil
  | unused => exact routed_nil
  | append _ _ ih ih' =>
    rw [linesOf_append]
    exact (ih hleads).append (ih' hleads)
  | plain hline _ => exact routed_singleton (hleads _ hline.file hline.outer)
  | splice hline hpath _ ih =>
    have hreached := hleads _ hline.file hline.outer
    refine Routed.spliced (ih fun other hfile houter => ?_) hreached
    exact .through hpath hreached hfile houter
  | block hline _ _ ih =>
    rw [linesOf, linesOf, List.append_nil]
    exact (routed_singleton (hleads _ hline.file hline.outer)).append (ih hleads)
  | choice hline _ _ ih ih' =>
    rw [linesOf, linesOf, List.append_nil]
    exact (routed_singleton (hleads _ hline.file hline.outer)).append
      ((ih hleads).append (ih' hleads))

end

/-- **The lines of a source are reached through `INCLUDE` lines of it.** -/
theorem Origin.load_routed {origin : Origin} {source : Source} {s s' : Session}
    (h : origin.load s = .ok source s') :
    Routed s.library origin.main [] (linesOf source.items) :=
  (Origin.load_reads h).2.2.routed fun _ hfile houter => .directly hfile houter

end Z80Asm
