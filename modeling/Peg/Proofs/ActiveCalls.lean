import Mathlib.Data.List.Duplicate
import Mathlib.Data.List.Perm.Subperm
import Peg.Grammar.Written
import Peg.Proofs.Termination

namespace Peg

/-- A call of a rule of the grammar at an offset of the subject. -/
def Call.Ordinary (g : Grammar) (x : Subject) (c : Call) : Prop :=
  (∃ r ∈ g.rules, r.name = c.rule) ∧ c.offset ≤ x.size

namespace Call

variable {g : Grammar} {x : Subject}

def all (g : Grammar) (x : Subject) : List Call :=
  g.rules.flatMap fun r => (List.range (x.size + 1)).map (Call.mk r.name)

theorem length_all : (all g x).length = g.rules.length * (x.size + 1) := by
  simp only [all, List.length_flatMap, List.length_map, List.length_range, List.map_const',
    List.sum_replicate_nat]

theorem Ordinary.mem_all {c : Call} (h : c.Ordinary g x) : c ∈ all g x := by
  obtain ⟨⟨r, hr, hn⟩, hc⟩ := h
  refine List.mem_flatMap.mpr ⟨r, hr, List.mem_map.mpr ⟨c.offset, List.mem_range.mpr (Nat.lt_succ_of_le hc), ?_⟩⟩
  rw [hn]

/-- There are no more calls at once than rules and offsets, unless one of them is active twice. -/
theorem length_le_of_nodup {calls : List Call} (h : ∀ c ∈ calls, c.Ordinary g x) (hn : calls.Nodup) :
    calls.length ≤ g.rules.length * (x.size + 1) := by
  rw [← length_all]
  exact (List.subperm_of_subset hn fun c hc => (h c hc).mem_all).length_le

end Call

/-- Where the call limit stops a run, as many calls are active as it allows, and each of them is ordinary:
what the grammar understands without a rule calls nothing. -/
theorem Grammar.calls_of_callDepth (g : Grammar) (x : Subject) {depth p : Nat} (name : Octets) {s t : State}
    (hp : p ≤ x.size) (hs : ∀ c ∈ s.calls, c.Ordinary g x) (h : g.caller x depth name p s = .raised .callDepth t) :
    s.callLimit ≤ t.calls.length ∧ ∀ c ∈ t.calls, c.Ordinary g x := by
  let P (limit : Nat) (o : Outcome State) : Prop :=
    ∀ t, o = .raised .callDepth t → limit ≤ t.calls.length ∧ ∀ c ∈ t.calls, c.Ordinary g x
  have hP : ∀ limit, Outcome.Lenient (P limit) := fun _ _ _ _ => nofun
  suffices key : P s.callLimit (g.caller x depth name p s) from key t h
  clear h t
  induction depth generalizing name p s with
  | zero => exact fun _ => nofun
  | succ depth ih =>
      refine (hP s.callLimit).call hp ?_ fun _ => ?_
      · rintro hl t he
        cases he
        exact ⟨hl.2, hs⟩
      · have hc := Recogniser.congruence_stops (hP s.callLimit) (fun _ _ _ => nofun) (fun _ _ _ => nofun) x
          (⟨name, p⟩ :: s.calls) s.callLimit p
        unfold Grammar.resolve
        split
        · exact (hc.congruence.builtin _).2.2
        · split
          · rename_i r hr
            obtain ⟨hm, hn⟩ := Grammar.find?_eq_some hr
            have hcalls : ∀ c ∈ ⟨name, p⟩ :: s.calls, c.Ordinary g x :=
              List.forall_mem_cons.mpr ⟨⟨⟨r, hm, hn⟩, hp⟩, hs⟩
            have hdeeper : ∀ callee, (g.caller x depth callee).Stops x (P s.callLimit) (⟨name, p⟩ :: s.calls)
                s.callLimit p := by
              intro callee q u _ hq hcs hls
              rw [← hls]
              exact ih callee hq (hcs ▸ hcalls)
            exact hc.rule (k := depth) hdeeper r
          · exact hc.undefinedRule name

/-- A generous call limit only ever stops left recursion: when it is reached, a rule of the grammar is
called twice at one offset, and both calls are active. -/
theorem Parser.parse?_callDepth_repeats {p : Parser} {n : Nat} {start text : Octets}
    (hl : p.grammar.rules.length * (text.length + 1) < p.callLimit)
    (h : p.parse? n start text = some (.error .callDepth)) :
    ∃ s, p.run n start (Subject.ofOctets text) = .raised .callDepth s ∧ p.callLimit ≤ s.calls.length ∧
      ∃ c, (∃ r ∈ p.grammar.rules, r.name = c.rule) ∧ c.offset ≤ text.length ∧ 2 ≤ s.calls.count c := by
  rw [p.parse?_eq_verdict?, Outcome.verdict?_eq_error] at h
  obtain ⟨s, ho⟩ := h
  have hx : (Subject.ofOctets text).size = text.length := Subject.size_eq _
  obtain ⟨hle, hs⟩ := p.grammar.calls_of_callDepth _ start (Nat.zero_le _) (List.forall_mem_nil _) ho
  refine ⟨s, ho, hle, ?_⟩
  have hd : ¬s.calls.Nodup := by
    intro hn
    have hlen := Call.length_le_of_nodup hs hn
    rw [hx] at hlen
    exact absurd hle (Nat.not_le_of_lt (Nat.lt_of_le_of_lt hlen hl))
  obtain ⟨c, hc⟩ := List.exists_duplicate_iff_not_nodup.mpr hd
  obtain ⟨hr, hq⟩ := hs c hc.mem
  exact ⟨c, hr, hx ▸ hq, List.duplicate_iff_two_le_count.mp hc⟩

/-- Two rules that begin with each other. -/
theorem Parser.parse?_callDepth_repeats_mutual :
    let g : Grammar := ⟨[.written "a" .normal (.choice (.seq (.rule "b") (.written "x")) (.written "y")),
      .written "b" .silent (.rule "a")], by decide, by decide, by decide⟩
    let p : Parser := { grammar := g, callLimit := 7 }
    2 * (2 + 1) < 7 ∧ p.parse? 0 (ascii "a") (ascii "yx") = some (.error .callDepth) ∧
      ∃ s, p.run 0 (ascii "a") (Subject.ofOctets (ascii "yx")) = .raised .callDepth s ∧ 7 ≤ s.calls.length ∧
        ∃ c, (∃ r ∈ g.rules, r.name = c.rule) ∧ c.offset ≤ 2 ∧ 2 ≤ s.calls.count c :=
  ⟨by decide, rfl, parse?_callDepth_repeats (by decide) rfl⟩

end Peg
