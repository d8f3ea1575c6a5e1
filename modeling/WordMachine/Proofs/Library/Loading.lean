import WordMachine.Library

/-!
# Loading is a left fold, also across redirects

A builder does two things. It changes the environment at the place it is handed, and nowhere else
(`Builder.edit`), and it says which place the next builder is handed (`Builder.next`). Only a
redirect names another place, and it looks at no environment to do so. `Builder.apply_eq` says this
once for all builders.

**Which places a load goes through is therefore settled by the builders alone**, and a place that it
does not go through keeps its environment (`content_load_of_ne`). What a build returns is the
environment of the place where the load ends. Once a redirect has led away from the fresh
environment no builder ever leads back to it, so what was bound there is lost: stores that differ
in the fresh environment only are built upon alike (`load_agreeNamed`).
-/

set_option autoImplicit false

namespace WordMachine

theorem Store.set_content_self (s : Store) (place : Place) : s.set place (s.content place) = s := by
  obtain ⟨content, serial⟩ := s
  simp only [set, mk.injEq, and_true]
  funext other
  by_cases h : other = place
  · simp [h]
  · simp [h]

/-- Stores that differ in the fresh environment only. -/
structure Store.AgreeNamed (s t : Store) : Prop where
  content : ∀ name, s.content (.named name) = t.content (.named name)
  serial : s.serial = t.serial

namespace Builder

/-- What a builder makes of the environment it is handed. -/
def edit (b : Builder) (serial : Nat) (e : Environment) : Environment :=
  match b with
  | .standard group => e.defineWords group.words serial
  | .define key value => e.define key value
  | .copy source target => ((e.find? source).map (e.define target)).getD e
  | .redirect _ => e

/-- The place that a builder hands on. -/
def next : Builder → Place → Place
  | .redirect name, _ => .named name
  | _, place => place

/-- The serial number after a builder: standard words are numbered as they are made. -/
def tick : Builder → Nat → Nat
  | .standard _, serial => serial + 1
  | _, serial => serial

theorem apply_eq (b : Builder) (place : Place) (s : Store) :
    b.apply place s
      = (b.next place, { s.set place (b.edit s.serial (s.content place)) with
          serial := b.tick s.serial }) := by
  cases b with
  | standard group => rfl
  | define key value => rfl
  | copy source target =>
    rw [apply]
    cases hf : (s.content place).find? source with
    | none => simp [next, edit, tick, hf, Store.set_content_self]
    | some value => simp [next, edit, tick, hf, Store.set]
  | redirect name => simp [apply, next, edit, tick, Store.set_content_self]

theorem next_of_ne_redirect {b : Builder} (h : ∀ name, b ≠ .redirect name) (place : Place) :
    b.next place = place := by
  cases b with
  | redirect name => exact absurd rfl (h name)
  | _ => rfl

theorem noRedirect_cons {b : Builder} {rest : List Builder}
    (h : ∀ name, Builder.redirect name ∉ b :: rest) :
    (∀ name, b ≠ .redirect name) ∧ ∀ name, Builder.redirect name ∉ rest := by
  constructor
  · rintro name rfl
    exact h name List.mem_cons_self
  · intro name hmem
    exact h name (List.mem_cons_of_mem b hmem)

/-- A builder that is handed a named environment neither reads the fresh one nor hands it on. -/
theorem apply_agreeNamed {s t : Store} (h : s.AgreeNamed t) (b : Builder) (name : Text) :
    (b.apply (.named name) s).1 = (b.apply (.named name) t).1 ∧
      (∃ other, (b.apply (.named name) t).1 = .named other) ∧
      Store.AgreeNamed (b.apply (.named name) s).2 (b.apply (.named name) t).2 := by
  rw [apply_eq, apply_eq]
  refine ⟨rfl, ?_, ?_, ?_⟩
  · cases b with
    | redirect other => exact ⟨other, rfl⟩
    | _ => exact ⟨name, rfl⟩
  · intro other
    by_cases hother : other = name
    · simp [hother, h.content, h.serial]
    · simp [hother, h.content]
  · simp [h.serial]

end Builder

namespace Library

/-- The environment that a load returns, as it is when the load has ended. -/
def returned (l : Library) (place : Place) (s : Store) : Environment :=
  (l.load place s).2.content (l.load place s).1

theorem load_cons (b : Builder) (rest : List Builder) (place : Place) (s : Store) :
    (mk (b :: rest)).load place s = (mk rest).load (b.apply place s).1 (b.apply place s).2 := rfl

theorem load_extend (l : Library) (b : Builder) (place : Place) (s : Store) :
    (l.extend b).load place s = b.apply (l.load place s).1 (l.load place s).2 := by
  rw [extend, load_append]
  rfl

theorem load_redirect (name : Text) (rest : List Builder) (place : Place) (s : Store) :
    (mk (.redirect name :: rest)).load place s = (mk rest).load (.named name) s := rfl

/-! ## Places -/

/-- A place that is handed to no builder keeps its environment. -/
theorem content_load_of_ne {builders : List Builder} {start place : Place} {s : Store}
    (h : ∀ before b after, builders = before ++ b :: after →
      ((mk before).load start s).1 ≠ place) :
    ((mk builders).load start s).2.content place = s.content place := by
  induction builders generalizing start s with
  | nil => rfl
  | cons b rest ih =>
    have hstart : start ≠ place := h [] b rest rfl
    have hrest : ∀ before b' after, rest = before ++ b' :: after →
        ((mk before).load (b.apply start s).1 (b.apply start s).2).1 ≠ place := by
      intro before b' after hsplit
      rw [← load_cons]
      exact h (b :: before) b' after (by rw [hsplit, List.cons_append])
    rw [load_cons, ih hrest, Builder.apply_eq]
    simp [Store.set, hstart.symm]

theorem load_fst_of_noRedirect {builders : List Builder}
    (h : ∀ name, Builder.redirect name ∉ builders) (start : Place) (s : Store) :
    ((mk builders).load start s).1 = start := by
  induction builders generalizing s with
  | nil => rfl
  | cons b rest ih =>
    obtain ⟨hb, hrest⟩ := Builder.noRedirect_cons h
    rw [load_cons, Builder.apply_eq, Builder.next_of_ne_redirect hb]
    exact ih hrest _

theorem content_load_of_noRedirect {builders : List Builder}
    (h : ∀ name, Builder.redirect name ∉ builders) {start place : Place} (hne : place ≠ start)
    (s : Store) : ((mk builders).load start s).2.content place = s.content place := by
  refine content_load_of_ne ?_
  intro before b after hsplit
  have hbefore : ∀ name, Builder.redirect name ∉ before := by
    intro name hmem
    exact h name (by rw [hsplit]; exact List.mem_append_left _ hmem)
  rw [load_fst_of_noRedirect hbefore]
  exact hne.symm

theorem returned_of_noRedirect {builders : List Builder}
    (h : ∀ name, Builder.redirect name ∉ builders) (start : Place) (s : Store) :
    (mk builders).returned start s = ((mk builders).load start s).2.content start := by
  rw [returned, load_fst_of_noRedirect h]

/-! ## Moving a load to another place

Two loads without redirects, each at a place of its own, stay in step: the environments at the two
places are the same after every builder if they were so before the first. -/

theorem content_load_relocate {builders : List Builder}
    (h : ∀ name, Builder.redirect name ∉ builders) {p q : Place} {s t : Store}
    (hcontent : s.content p = t.content q) (hserial : s.serial = t.serial) :
    ((mk builders).load p s).2.content p = ((mk builders).load q t).2.content q := by
  induction builders generalizing s t with
  | nil => exact hcontent
  | cons b rest ih =>
    obtain ⟨hb, hrest⟩ := Builder.noRedirect_cons h
    rw [load_cons, load_cons, Builder.apply_eq, Builder.apply_eq, Builder.next_of_ne_redirect hb,
      Builder.next_of_ne_redirect hb]
    refine ih hrest ?_ ?_
    · simp [Store.set, hcontent, hserial]
    · simp [hserial]

/-! ## The fresh environment is left behind -/

theorem load_agreeNamed {s t : Store} (h : s.AgreeNamed t) (builders : List Builder)
    (name : Text) :
    ((mk builders).load (.named name) s).1 = ((mk builders).load (.named name) t).1 ∧
      (∃ last, ((mk builders).load (.named name) t).1 = .named last) ∧
      Store.AgreeNamed ((mk builders).load (.named name) s).2
        ((mk builders).load (.named name) t).2 := by
  induction builders generalizing s t name with
  | nil => exact ⟨rfl, ⟨name, rfl⟩, h⟩
  | cons b rest ih =>
    obtain ⟨hplace, ⟨other, hother⟩, hagree⟩ := b.apply_agreeNamed h name
    rw [load_cons, load_cons, hplace, hother]
    exact ih hagree other

theorem returned_agreeNamed {s t : Store} (h : s.AgreeNamed t) (builders : List Builder)
    (name : Text) :
    (mk builders).returned (.named name) s = (mk builders).returned (.named name) t := by
  obtain ⟨hplace, ⟨last, hlast⟩, hagree⟩ := load_agreeNamed h builders name
  rw [returned, returned, hplace, hlast]
  exact hagree.content last

/-! ## Builds -/

theorem returned_append (before after : List Builder) (start : Place) (s : Store) :
    (mk (before ++ after)).returned start s
      = (mk after).returned ((mk before).load start s).1 ((mk before).load start s).2 := by
  rw [returned, load_append]
  rfl

theorem build_fst (l : Library) (s : Store) :
    (l.build s).1 = l.returned .fresh (s.set .fresh .empty) := rfl

theorem build_snd (l : Library) (s : Store) :
    (l.build s).2 = (l.load .fresh (s.set .fresh .empty)).2 := rfl

/-- **Loading is a left fold over the store and the current place.** It can be cut anywhere and
taken up again at the place and with the store that the first part left. A place that is handed to
no builder keeps its environment, and without redirects the place returned is the one passed in.

A build returns the environment of the last place as it is in the end. After a last redirect to
`name` this is the environment there, as the builders after the redirect have changed it; and what
was made of the fresh environment before the first redirect has no part in it, since the rest could
as well have been loaded into the store as it was, but for the numbering of standard words. A build
without redirects returns what a load makes of an empty environment, at whatever place, and leaves
all named environments as they are. -/
theorem load_folds_across_redirects (l : Library) (start : Place) (s : Store) :
    (∀ first second, l.builders = first ++ second →
      l.load start s
        = (mk second).load ((mk first).load start s).1 ((mk first).load start s).2) ∧
    (∀ b, (l.extend b).load start s = b.apply (l.load start s).1 (l.load start s).2) ∧
    (∀ place, (∀ before b after, l.builders = before ++ b :: after →
        ((mk before).load start s).1 ≠ place) →
      (l.load start s).2.content place = s.content place) ∧
    ((∀ name, Builder.redirect name ∉ l.builders) → (l.load start s).1 = start) ∧
    (l.build s).1 = (l.build s).2.content (l.load .fresh (s.set .fresh .empty)).1 ∧
    (∀ before name after, l.builders = before ++ .redirect name :: after →
      (∀ other, Builder.redirect other ∉ after) →
      (l.build s).1 = (l.build s).2.content (.named name) ∧
      (l.build s).1 = ((mk after).load (.named name)
        ((mk before).load .fresh (s.set .fresh .empty)).2).2.content (.named name)) ∧
    (∀ made name rest, l.builders = made ++ .redirect name :: rest →
      (∀ other, Builder.redirect other ∉ made) →
      (l.build s).1 = (mk rest).returned (.named name)
        ⟨s.content, ((mk made).load .fresh (s.set .fresh .empty)).2.serial⟩) ∧
    ((∀ name, Builder.redirect name ∉ l.builders) →
      (∀ place, (l.build s).1 = (l.load place (s.set place .empty)).2.content place) ∧
      ∀ name, (l.build s).2.content (.named name) = s.content (.named name)) := by
  obtain ⟨builders⟩ := l
  refine ⟨?_, fun b => load_extend _ b start s, fun place => content_load_of_ne, ?_, rfl, ?_, ?_,
    ?_⟩
  · rintro first second rfl
    exact load_append first second start s
  · intro h
    exact load_fst_of_noRedirect h start s
  · rintro before name after rfl hafter
    rw [build_fst, build_snd, returned_append, load_append, returned, load_redirect,
      load_fst_of_noRedirect hafter]
    exact ⟨rfl, rfl⟩
  · rintro made name rest rfl hmade
    -- the builders before the first redirect have touched nothing but the fresh environment
    have hagree : Store.AgreeNamed ((mk made).load .fresh (s.set .fresh .empty)).2
        ⟨s.content, ((mk made).load .fresh (s.set .fresh .empty)).2.serial⟩ := by
      refine ⟨?_, rfl⟩
      intro other
      rw [content_load_of_noRedirect hmade (by simp)]
      simp
    rw [build_fst, returned_append, returned, load_redirect]
    exact returned_agreeNamed hagree rest name
  · intro h
    refine ⟨?_, ?_⟩
    · intro place
      rw [build_fst, returned_of_noRedirect h]
      exact content_load_relocate h (by simp) rfl
    · intro name
      rw [build_snd, content_load_of_noRedirect h (by simp)]
      simp

/-- The word `a` is bound in the fresh environment, and to something else in `e`, where the load
goes on. The build returns `e`, with its own binding copied, and `f` is not touched; without the
redirect the copy is of the new binding. -/
theorem load_folds_across_redirects_abandoned :
    ((mk [.define [0x61] (.string []), .redirect [0x65], .copy [0x61] [0x62]]).build
        (Store.empty.set (.named [0x65]) (Environment.empty.define [0x61] (.word [])))).1
      = (Environment.empty.define [0x61] (.word [])).define [0x62] (.word []) ∧
    ((mk [.define [0x61] (.string []), .redirect [0x65], .copy [0x61] [0x62]]).load .fresh
        .empty).2.content (.named [0x66]) = .empty ∧
    ((mk [.define [0x61] (.string []), .copy [0x61] [0x62]]).build .empty).1
      = (Environment.empty.define [0x61] (.string [])).define [0x62] (.string []) := by
  refine ⟨?_, ?_, ?_⟩
  · obtain ⟨-, -, -, -, -, -, hfirst, -⟩ := load_folds_across_redirects
      (mk [.define [0x61] (.string []), .redirect [0x65], .copy [0x61] [0x62]]) .fresh
      (Store.empty.set (.named [0x65]) (Environment.empty.define [0x61] (.word [])))
    exact hfirst [.define [0x61] (.string [])] [0x65] [.copy [0x61] [0x62]] rfl (by simp)
  · obtain ⟨-, -, hframe, -⟩ := load_folds_across_redirects
      (mk [.define [0x61] (.string []), .redirect [0x65], .copy [0x61] [0x62]]) .fresh .empty
    refine hframe (.named [0x66]) ?_
    intro before b after hsplit
    match before, hsplit with
    | [], _ => decide
    | [_], h => cases h; decide
    | [_, _], h => cases h; decide
    | _ :: _ :: _ :: _, h => simp at h
  · obtain ⟨-, -, -, -, -, -, -, hnone⟩ := load_folds_across_redirects
      (mk [.define [0x61] (.string []), .copy [0x61] [0x62]]) .fresh .empty
    exact (hnone (by simp)).1 (.named [])

end Library
end WordMachine
