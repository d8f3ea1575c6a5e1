import WordMachine.Proofs.Environment.Keys
import WordMachine.Proofs.Library.Loading
import WordMachine.Proofs.Machine.Twins

/-!
# Loading the standard words again, and in another order

The three groups of standard words can be loaded into an environment in any order and as often as
one likes. **Whoever loads a group last has made its words** (`find?_defineGroups_of_last`), and
whatever else the environment binds is left alone; so once each group has been loaded, the
environment binds the nine names and nothing more is new. The primitives are not those that another
order would have made, since every load makes its own. But they are twins of them, and runs do not
tell twins apart.

A load at a place of a store is, for the environment at that place, a succession of definitions
(`Environment.defineGroups`), with the serial numbers counted up from that of the store.
-/

set_option autoImplicit false

namespace WordMachine

namespace StandardWord

/-- The group that a word is loaded with. -/
def group : StandardWord → WordGroup
  | .add | .subtract | .multiply | .divide => .arithmetic
  | .sqrt => .math
  | .dup | .drop | .swap | .over => .stackWords

/-- The names of all standard words. -/
def names : Finset Text :=
  ((WordGroup.arithmetic.words ++ WordGroup.math.words ++ WordGroup.stackWords.words).map
    name).toFinset

theorem mem_words_iff {w : StandardWord} {g : WordGroup} : w ∈ g.words ↔ w.group = g := by
  cases w <;> cases g <;> decide

theorem mem_names_iff {key : Text} : key ∈ names ↔ ∃ w : StandardWord, w.name = key := by
  simp only [names, List.mem_toFinset, List.mem_map, List.mem_append, mem_words_iff]
  constructor
  · rintro ⟨w, -, h⟩
    exact ⟨w, h⟩
  · rintro ⟨w, h⟩
    refine ⟨w, ?_, h⟩
    cases w.group <;> simp

/-- Two standard primitives are compared as equal only if one load made them of one word. -/
theorem agrees_primitive_iff {v w : StandardWord} {i j : Nat} :
    (Value.primitive (v.primitive i)).agrees (.primitive (w.primitive j)) ↔ v = w ∧ i = j := by
  simp [Value.agrees, primitive]

end StandardWord

namespace Environment

variable {e : Environment}

theorem find?_defineWords_of_ne {words : List StandardWord} {key : Text}
    (h : ∀ w ∈ words, key ≠ w.name) (serial : Nat) :
    (e.defineWords words serial).find? key = e.find? key := by
  induction words generalizing e with
  | nil => rfl
  | cons w rest ih =>
    have hrest := ih (e := e.define w.name (.primitive (w.primitive serial)))
      fun v hv => h v (List.mem_cons_of_mem _ hv)
    refine hrest.trans ?_
    rw [find?_define, if_neg (h w List.mem_cons_self)]

theorem find?_defineWords_of_mem {words : List StandardWord} {w : StandardWord} (h : w ∈ words)
    (serial : Nat) :
    (e.defineWords words serial).find? w.name = some (.primitive (w.primitive serial)) := by
  induction words generalizing e with
  | nil => cases h
  | cons v rest ih =>
    by_cases hw : w ∈ rest
    · exact ih (e := e.define v.name (.primitive (v.primitive serial))) hw
    · -- no later word has this name, so the definition stands
      have hvw : v = w := ((List.mem_cons.mp h).resolve_right hw).symm
      have hne : ∀ u ∈ rest, w.name ≠ u.name := by
        intro u hu hname
        rw [StandardWord.name_injective hname] at hw
        exact hw hu
      refine (find?_defineWords_of_ne (e := e.define v.name (.primitive (v.primitive serial))) hne
        serial).trans ?_
      rw [hvw, find?_define, if_pos rfl]

/-- Loads groups of standard words one after the other, numbered from the given serial number on. -/
def defineGroups (e : Environment) : List WordGroup → Nat → Environment
  | [], _ => e
  | g :: rest, serial => (e.defineWords g.words serial).defineGroups rest (serial + 1)

theorem defineGroups_append (e : Environment) (first second : List WordGroup) (serial : Nat) :
    e.defineGroups (first ++ second) serial
      = (e.defineGroups first serial).defineGroups second (serial + first.length) := by
  induction first generalizing e serial with
  | nil => rfl
  | cons g rest ih =>
    rw [List.cons_append, defineGroups, defineGroups, ih, List.length_cons]
    congr 1
    omega

theorem find?_defineGroups_of_ne {groups : List WordGroup} {key : Text}
    (h : ∀ w : StandardWord, w.group ∈ groups → key ≠ w.name) (serial : Nat) :
    (e.defineGroups groups serial).find? key = e.find? key := by
  induction groups generalizing e serial with
  | nil => rfl
  | cons g rest ih =>
    rw [defineGroups, ih fun w hw => h w (List.mem_cons_of_mem _ hw)]
    apply find?_defineWords_of_ne
    intro w hw
    rw [StandardWord.mem_words_iff] at hw
    exact h w (hw ▸ List.mem_cons_self)

/-- A word is bound by the last load of its group. -/
theorem find?_defineGroups_of_last {w : StandardWord} (before : List WordGroup)
    {after : List WordGroup} (h : w.group ∉ after) (serial : Nat) :
    (e.defineGroups (before ++ w.group :: after) serial).find? w.name
      = some (.primitive (w.primitive (serial + before.length))) := by
  rw [defineGroups_append, defineGroups, find?_defineGroups_of_ne]
  · exact find?_defineWords_of_mem (StandardWord.mem_words_iff.mpr rfl) _
  · intro v hv hname
    rw [StandardWord.name_injective hname] at h
    exact h hv

end Environment

/-- What is in a list is in it for a last time. -/
theorem WordGroup.exists_last {g : WordGroup} {groups : List WordGroup} (h : g ∈ groups) :
    ∃ before after, groups = before ++ g :: after ∧ g ∉ after := by
  obtain ⟨after, before, hsplit, hafter⟩ :=
    List.eq_append_cons_of_mem (List.mem_reverse.mpr h)
  refine ⟨before.reverse, after.reverse, ?_, by simpa using hafter⟩
  rw [← List.reverse_reverse groups, hsplit]
  simp

namespace Environment

variable {groups : List WordGroup} (hall : ∀ g, g ∈ groups) (e : Environment) (serial : Nat)
include hall

theorem find?_defineGroups (w : StandardWord) :
    ∃ before after, groups = before ++ w.group :: after ∧ w.group ∉ after ∧
      (e.defineGroups groups serial).find? w.name
        = some (.primitive (w.primitive (serial + before.length))) := by
  obtain ⟨before, after, rfl, hafter⟩ := WordGroup.exists_last (hall w.group)
  exact ⟨before, after, rfl, hafter, find?_defineGroups_of_last before hafter serial⟩

theorem keys_defineGroups : (e.defineGroups groups serial).keys = e.keys ∪ StandardWord.names := by
  ext key
  rw [Finset.mem_union, mem_keys, mem_keys, StandardWord.mem_names_iff]
  by_cases hkey : ∃ w : StandardWord, w.name = key
  · obtain ⟨w, rfl⟩ := hkey
    obtain ⟨before, after, -, -, hf⟩ := find?_defineGroups hall e serial w
    simp [contains, hf]
  · have hf : (e.defineGroups groups serial).find? key = e.find? key := by
      apply find?_defineGroups_of_ne
      rintro w - rfl
      exact hkey ⟨w, rfl⟩
    simp [contains, hf, hkey]

/-- Once each group has been loaded, it does not matter in which order and how often. -/
theorem twins_defineGroups {others : List WordGroup} (hothers : ∀ g, g ∈ others) (serial' : Nat) :
    (e.defineGroups groups serial).Twins (e.defineGroups others serial') := by
  intro key
  by_cases hkey : ∃ w : StandardWord, w.name = key
  · obtain ⟨w, rfl⟩ := hkey
    obtain ⟨before, after, -, -, hf⟩ := find?_defineGroups hall e serial w
    obtain ⟨before', after', -, -, hf'⟩ := find?_defineGroups hothers e serial' w
    rw [hf, hf']
    exact .some .standard
  · have hne : ∀ w : StandardWord, key ≠ w.name := by
      rintro w rfl
      exact hkey ⟨w, rfl⟩
    rw [find?_defineGroups_of_ne fun w _ => hne w, find?_defineGroups_of_ne fun w _ => hne w]
    exact Twins.refl e key

end Environment

namespace Library

/-- The library that loads groups of standard words in the given order. -/
def ofGroups (groups : List WordGroup) : Library := ⟨groups.map .standard⟩

/-- A load of groups changes the environment at its place, and counts the loads. -/
theorem load_ofGroups (groups : List WordGroup) (place : Place) (s : Store) :
    (ofGroups groups).load place s
      = (place, ⟨(s.set place ((s.content place).defineGroups groups s.serial)).content,
          s.serial + groups.length⟩) := by
  induction groups generalizing s with
  | nil =>
    rw [Environment.defineGroups, Store.set_content_self]
    rfl
  | cons g rest ih =>
    rw [ofGroups, List.map_cons, load_cons, ← ofGroups, Builder.apply_eq]
    refine (ih _).trans ?_
    simp only [Builder.tick, Builder.edit, Store.content_set, if_true, Environment.defineGroups,
      List.length_cons, Prod.mk.injEq, Store.mk.injEq, true_and]
    refine ⟨?_, by omega⟩
    funext other
    by_cases h : other = place
    · simp [h]
    · simp [h]

theorem returned_ofGroups (groups : List WordGroup) (place : Place) (s : Store) :
    (ofGroups groups).returned place s = (s.content place).defineGroups groups s.serial := by
  simp [returned, load_ofGroups]

theorem standard_eq_ofGroups : standard = ofGroups [.arithmetic, .math, .stackWords] := rfl

theorem mem_standardGroups (g : WordGroup) : g ∈ [WordGroup.arithmetic, .math, .stackWords] := by
  cases g <;> decide

/-- Primitives made by different loads, of which one came after the other, are never compared as
equal. -/
theorem agrees_eq_false_of_serial {groups others : List WordGroup} {place other : Place}
    {s t : Store} (hall : ∀ g, g ∈ groups) (hothers : ∀ g, g ∈ others)
    (h : ((ofGroups groups).load place s).2.serial ≤ t.serial ∨
      ((ofGroups others).load other t).2.serial ≤ s.serial) {v w : StandardWord} {a b : Value}
    (ha : ((ofGroups groups).returned place s).find? v.name = some a)
    (hb : ((ofGroups others).returned other t).find? w.name = some b) : a.agrees b = false := by
  rw [returned_ofGroups] at ha hb
  obtain ⟨before, after, hsplit, -, hf⟩ := Environment.find?_defineGroups hall _ s.serial v
  obtain ⟨before', after', hsplit', -, hf'⟩ := Environment.find?_defineGroups hothers _ t.serial w
  rw [hf] at ha
  rw [hf'] at hb
  cases ha
  cases hb
  rw [Bool.eq_false_iff, Ne, StandardWord.agrees_primitive_iff]
  rintro ⟨-, hserial⟩
  have hlength := congrArg List.length hsplit
  have hlength' := congrArg List.length hsplit'
  simp only [List.length_append, List.length_cons] at hlength hlength'
  simp only [load_ofGroups] at h
  omega

/-- **Order and repetition are invisible.** Load the groups of standard words into the environment
at a place, each group at least once. Nothing but that environment is changed. It binds the nine
names, each to a primitive of that name that the last load of its group has made; it binds
everything else as before; and its size is the number of keys there were, and of names, without
those counted twice.

Runs go as they go after a load of the standard library into the same environment, at whatever
place, in whatever store: from every position of every program, with every stack, under every host.
The host may also be one whose operations run programs in the environment that was loaded, under a
name that they know. And yet no primitive of the one environment equals one of the other, if the
loads were made one after the other. -/
theorem reloading_invisible (groups : List WordGroup) (hall : ∀ g, g ∈ groups) (place : Place)
    (s : Store) :
    ((ofGroups groups).load place s).1 = place ∧
    (∀ other, other ≠ place →
      ((ofGroups groups).load place s).2.content other = s.content other) ∧
    (∀ w : StandardWord, ∃ before after, groups = before ++ w.group :: after ∧ w.group ∉ after ∧
      ((ofGroups groups).returned place s).find? w.name
        = some (.primitive (w.primitive (s.serial + before.length)))) ∧
    (∀ key, (∀ w : StandardWord, key ≠ w.name) →
      ((ofGroups groups).returned place s).lookup key = (s.content place).lookup key ∧
      ((ofGroups groups).returned place s).contains key = (s.content place).contains key) ∧
    ((ofGroups groups).returned place s).size
      = ((s.content place).keys ∪ StandardWord.names).card ∧
    ∀ (other : Place) (t : Store), t.content other = s.content place →
      (∀ host p pc stack,
        (Machine.mk ((ofGroups groups).returned place s) host).run p pc stack
          = (Machine.mk (standard.returned other t) host).run p pc stack) ∧
      (∀ (w : World) (name : Text) (bodies : Nat → Body) (allowance : Nat) p pc stack,
        (Machine.mk ((ofGroups groups).returned place s)
          ((w.setEnvironment name ((ofGroups groups).returned place s)).hostOf bodies
            allowance)).run p pc stack
          = (Machine.mk (standard.returned other t)
            ((w.setEnvironment name (standard.returned other t)).hostOf bodies
              allowance)).run p pc stack) ∧
      (((ofGroups groups).load place s).2.serial ≤ t.serial ∨
          (standard.load other t).2.serial ≤ s.serial →
        ∀ (v w : StandardWord) a b,
          ((ofGroups groups).returned place s).find? v.name = some a →
          (standard.returned other t).find? w.name = some b → a.agrees b = false) := by
  refine ⟨?_, ?_, ?_, ?_, ?_, ?_⟩
  · rw [load_ofGroups]
  · intro other hother
    simp [load_ofGroups, hother]
  · intro w
    rw [returned_ofGroups]
    exact Environment.find?_defineGroups hall _ _ w
  · intro key hkey
    have hf : ((ofGroups groups).returned place s).find? key = (s.content place).find? key := by
      rw [returned_ofGroups]
      exact Environment.find?_defineGroups_of_ne (fun w _ => hkey w) _
    exact ⟨Environment.lookup_eq_lookup_iff.mpr hf, congrArg Option.isSome hf⟩
  · rw [← Environment.card_keys, returned_ofGroups, Environment.keys_defineGroups hall]
  · intro other t ht
    have htwins : ((ofGroups groups).returned place s).Twins (standard.returned other t) := by
      rw [standard_eq_ofGroups, returned_ofGroups, returned_ofGroups, ht]
      exact Environment.twins_defineGroups hall _ _ mem_standardGroups _
    refine ⟨?_, ?_, ?_⟩
    · intro host p pc stack
      exact Machine.run_twins htwins host p pc stack
    · intro w name bodies allowance p pc stack
      rw [World.hostOf_twins (World.Twins.setEnvironment htwins w name)]
      exact Machine.run_twins htwins _ p pc stack
    · intro hserial v w a b ha hb
      exact agrees_eq_false_of_serial hall mem_standardGroups hserial ha hb

/-- The groups are loaded backwards, and the square root twice, over an environment in which a text
is bound to a name of theirs. The same program runs as after a load of the library into a copy,
though the square roots of the two are different primitives. -/
theorem reloading_invisible_backwards :
    (Machine.mk ((ofGroups [.stackWords, .math, .arithmetic, .math]).returned .fresh
        (.mk (fun _ => Environment.empty.define StandardWord.add.name (.string [])) 5)) .none).run
        ⟨[.string [], .word StandardWord.dup.name, .word StandardWord.add.name]⟩ 0 .empty
      = (Machine.mk (standard.returned (.named [])
        ((ofGroups [.stackWords, .math, .arithmetic, .math]).load .fresh
          (.mk (fun _ => Environment.empty.define StandardWord.add.name (.string [])) 5)).2)
        .none).run
        ⟨[.string [], .word StandardWord.dup.name, .word StandardWord.add.name]⟩ 0 .empty ∧
    (Value.primitive (StandardWord.sqrt.primitive 8)).agrees
      (.primitive (StandardWord.sqrt.primitive 10)) = false := by
  obtain ⟨-, hframe, -, -, -, hruns⟩ := reloading_invisible
    [.stackWords, .math, .arithmetic, .math] (fun g => by cases g <;> decide) .fresh
    (.mk (fun _ => Environment.empty.define StandardWord.add.name (.string [])) 5)
  obtain ⟨hrun, -, hagrees⟩ := hruns (.named []) _ (hframe (.named []) (by decide))
  refine ⟨hrun .none _ 0 .empty, ?_⟩
  exact hagrees (Or.inl (Nat.le_refl _)) .sqrt .sqrt _ _ rfl rfl

end Library
end WordMachine
