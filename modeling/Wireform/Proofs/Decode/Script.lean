import Wireform.Proofs.Decode.Steps

/-! # Custom types that take one value

A program of a custom type takes one value of a kind (`Script.TakesOne`) if it takes it by one
request, after asking for the kind as often as it likes, and makes no other; where it reads an
aggregate part by part, the programs of the parts take one value each. Such a program makes the
calls of the value (`Cursor.script_follows`), and fails after the last of them just if what it got
makes it fail or does not fit a scalar type (`Script.Refuses`). -/

namespace Wireform

namespace Script

/-- A program asks for nothing. -/
def Ends : Script → Prop
  | done _ => True
  | fail _ => True
  | _ => False

/-- A program takes one value of the given kind, or fails without taking it. It asks for a scalar or
opens an aggregate only where that is what comes, since a reader refuses it anywhere else. -/
def TakesOne : Script → Kind → Prop
  | done _, _ => False
  | fail _, _ => True
  | kind next, k => (next k).TakesOne k
  | scalar s next, k => k = .scalar s ∧ ∀ x, (next x).Ends
  | leaf _ next, _ => ∀ x, (next x).Ends
  | value next, _ => ∀ v, (next v).Ends
  | skip next, _ => next.Ends
  | array element _ next, k =>
    k = .array ∧ (∀ index acc k, (element index acc).TakesOne k) ∧ ∀ count acc, (next count acc).Ends
  | positional _ place _ next, k =>
    k = .array ∧ (∀ index acc k, (place index acc).TakesOne k) ∧ ∀ count acc, (next count acc).Ends
  | map key content _ next, k =>
    k = .map ∧ (∀ k, key.TakesOne k) ∧ (∀ x acc k, (content x acc).TakesOne k) ∧
      ∀ count acc, (next count acc).Ends

/-- A program that takes the value next to a cursor fails for the given reason once it took it: a
scalar type does not fit, or what the value gave makes the rest of the program fail. -/
def Refuses (c : Cursor) (v : Value) (e : Error) : Script → Prop
  | done _ => False
  | fail _ => False
  | kind next => (next v.kind).Refuses c v e
  | scalar k next => ∃ x, ((Decoder.scalar k).exec c).1 = .ok x ∧ next x = fail e
  | leaf l next => l.Refuses v e ∨ ∃ x, ((Decoder.leaf l).exec c).1 = .ok x ∧ next x = fail e
  | value next => ∃ x, (Decoder.value.exec c).1 = .ok x ∧ next x = fail e
  | skip next => ∃ x, (Decoder.skip.exec c).1 = .ok x ∧ next = fail e
  | array element init next =>
    ∃ r, ((Decoder.array (fun index acc => Decoder.script (element index acc)) init).exec c).1 =
      .ok r ∧ next r.1 r.2 = fail e
  | positional capacity place init next =>
    ∃ r, ((Decoder.positional capacity (fun index acc => Decoder.script (place index acc))
      init).exec c).1 = .ok r ∧ next r.1 r.2 = fail e
  | map key content init next =>
    ∃ r, ((Decoder.map (Decoder.script key) (fun x acc => Decoder.script (content x acc))
      init).exec c).1 = .ok r ∧ next r.1 r.2 = fail e

end Script

/-- A custom type is read by programs that take one value, whatever its kind. -/
def Custom.TakesOne (c : Custom) : Prop := ∀ content k, (c.decode content).TakesOne k

namespace Cursor

open Decoder

variable {α : Type} {c d : Cursor} {v : Value}

/-- A program that goes on with what a request gave, and asks for nothing else, fails where the
request fails after its last call and where the rest of the program fails. -/
theorem request_follows {x : Step Cursor α} {next : α → Script} {L : Error → Prop}
    (hx : Follows x c d L) (hn : ∀ a, (next a).Ends) :
    Follows (x >>= fun a => script (next a)) c d
      fun e => L e ∨ ∃ a, (x.exec c).1 = .ok a ∧ next a = .fail e := by
  rcases hxc : x.exec c with ⟨e | a, d'⟩
  -- the request fails: the rest of the program is not run
  · have hexec := Step.exec_bind_error (f := fun a => script (next a)) hxc
    rcases hx.error hxc with ⟨hL, rfl⟩ | ⟨hL, hb⟩
    · exact .of_refusal hexec (.inl hL)
    · refine .of_error hexec ?_ hb
      rintro (h | ⟨a, ha, -⟩)
      · exact hL h
      · cases ha
  -- it succeeds: the rest of the program yields a content or fails, and makes no call
  · obtain rfl := hx.ok hxc
    have hexec := Step.exec_bind_ok (f := fun a => script (next a)) hxc
    have hna := hn a
    rcases hs : next a with content | e | _ | _ | _ | _ | _ | _ | _ | _
    · rw [hs] at hexec
      exact .of_exec hexec
    · rw [hs] at hexec
      exact .of_refusal hexec (.inr ⟨a, rfl, hs⟩)
    all_goals
      rw [hs] at hna
      exact hna.elim

/-- If the request fails before its last call only, there is just the rest of the program. -/
theorem sure_request_follows {x : Step Cursor α} {next : α → Script}
    (hx : Follows x c d fun _ => False) (hn : ∀ a, (next a).Ends) :
    Follows (x >>= fun a => script (next a)) c d
      fun e => ∃ a, (x.exec c).1 = .ok a ∧ next a = .fail e :=
  (request_follows hx hn).of_iff fun _ => or_iff_right id

/-- Only a scalar of a kind is of that kind. -/
theorem eq_scalar_of_kind {k : ScalarKind} (h : v.kind = .scalar k) : ∃ x, v = .scalar ⟨k, x⟩ := by
  rcases v with ⟨k', x⟩ | items | pairs
  · obtain rfl : k' = k := by simpa [Value.kind] using h
    exact ⟨x, rfl⟩
  · cases h
  · cases h

/-- A program that takes one value makes its calls. -/
theorem script_follows (s : Script) (hc : Ready c d v) (h : s.TakesOne v.kind) :
    Follows (script s) c (d.behind v) fun e => s.Refuses d v e := by
  -- the separator may still be pending before `s`, so the induction is for any cursor that is ready;
  -- every request opens with the separator and may as well be made behind it
  induction s generalizing c d v with
  | done content => exact h.elim
  | fail e => exact .of_error (Step.exec_throw _ _) id hc.strictlyBefore
  | kind next ih =>
    have hnext := ih v.kind hc.settled.ready h
    exact hnext.congr (hc.exec_kind_bind _)
  | scalar k next ih =>
    obtain ⟨hk, hn⟩ := h
    obtain ⟨x, rfl⟩ := eq_scalar_of_kind hk
    have hrequest : Follows (scalar k) d _ fun _ => False :=
      .of_exec hc.settled.ready.exec_scalar
    have hopens : Opens (scalar k : Step Cursor k.Carrier) := opens_separate.bind _
    exact (sure_request_follows hrequest hn).congr (hopens.bind _ hc)
  | leaf l next ih =>
    have hrequest := takes_leaf l hc.settled.ready
    exact (request_follows hrequest h).congr ((opens_leaf l).bind _ hc)
  | value next ih =>
    have hrequest := takes_value hc.settled.ready
    exact (sure_request_follows hrequest h).congr (opens_value.bind _ hc)
  | skip next ih =>
    have hrequest := takes_skip hc.settled.ready
    exact (sure_request_follows hrequest fun _ => h).congr (opens_skip.bind _ hc)
  | array element init next ihe ihn =>
    obtain ⟨hk, he, hn⟩ := h
    obtain ⟨items, rfl⟩ := eq_array_of_kind hk
    have helement : ∀ index acc, Consumes (script (element index acc)) := by
      intro index acc c d v hc
      exact (ihe index acc hc (he index acc v.kind)).advances
    have hrequest := hc.settled.array_follows helement init
    have hrest := sure_request_follows hrequest fun r => hn r.1 r.2
    exact hrest.congr ((opens_array _ _).bind _ hc)
  | positional capacity place init next ihp ihn =>
    obtain ⟨hk, hp, hn⟩ := h
    obtain ⟨items, rfl⟩ := eq_array_of_kind hk
    have hplace : ∀ index acc, Consumes (script (place index acc)) := by
      intro index acc c d v hc
      exact (ihp index acc hc (hp index acc v.kind)).advances
    have hrequest : Follows
        (positional capacity (fun index acc => script (place index acc)) init) d
        (d.behind (.array items)) fun _ => False :=
      hc.settled.positional_follows hplace init
    have hrest := sure_request_follows hrequest fun r => hn r.1 r.2
    exact hrest.congr ((opens_positional _ _ _).bind _ hc)
  | map key content init next ihk ihv ihn =>
    obtain ⟨hk, hkey, hv, hn⟩ := h
    obtain ⟨pairs, rfl⟩ := eq_map_of_kind hk
    have hkeys : Consumes (script key) := by
      intro c d v hc
      exact (ihk hc (hkey v.kind)).advances
    have hvalues : ∀ x acc, Consumes (script (content x acc)) := by
      intro x acc c d v hc
      exact (ihv x acc hc (hv x acc v.kind)).advances
    have hrequest := hc.settled.map_follows hkeys hvalues init
    have hrest := sure_request_follows hrequest fun r => hn r.1 r.2
    exact hrest.congr ((opens_map _ _ _).bind _ hc)

end Cursor

end Wireform
