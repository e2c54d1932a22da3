import EslTokio.DialString.Loaded

/-!
# Module texts a configuration load accepts

What the passes of a dial string may take for their own in a module text, and what the checks of a
load leave of it: no `:_:`, an opening no block reads, and in an expression no char a pass reads
ahead of the function.

* `Endpoint.dialled` — every accepted module text is one a dial string can dial.
* `Endpoint.reference` — an expression is one whole reference.
* `fieldText_inert` — a text without chars of the passes is escaped as it is.
-/

namespace EslTokio

open Library SwitchPasses

/-! ### No thread -/

theorem unthreaded_iff {text : Text} : splitsIntoThreads text = false ↔
    ¬ enterpriseDelim <:+: text := by
  rw [← threads_iff, Bool.not_eq_true]

theorem unthreaded_append_cons {left right : Text} {sep : Char} (hsep : sep ∉ enterpriseDelim)
    (hleft : splitsIntoThreads left = false) (hright : splitsIntoThreads right = false) :
    splitsIntoThreads (left ++ sep :: right) = false := by
  rw [unthreaded_iff] at hleft hright ⊢
  intro hwithin
  exact (Search.infix_append_cons hsep hwithin).elim hleft hright

/-- A name that ends on a char of no `:_:` stands ahead of a text. -/
structure Opening (name : Text) : Prop where
  unthreaded : splitsIntoThreads name.dropLast = false
  ends : ∃ c ∈ name.getLast?, c ∉ enterpriseDelim

instance (name : Text) : Decidable (Opening name) :=
  haveI : Decidable (∃ c ∈ name.getLast?, c ∉ enterpriseDelim) :=
    Option.decidableExistsMem name.getLast?
  decidable_of_iff (splitsIntoThreads name.dropLast = false ∧ ∃ c ∈ name.getLast?,
    c ∉ enterpriseDelim)
    ⟨fun h => ⟨h.1, h.2⟩, fun h => ⟨h.unthreaded, h.ends⟩⟩

theorem Opening.behind {name text : Text} (hname : Opening name)
    (h : splitsIntoThreads text = false) :
    splitsIntoThreads (name ++ text) = false := by
  obtain ⟨c, hlast, hends⟩ := hname.ends
  rw [← List.dropLast_append_getLast? c hlast, List.append_assoc]
  exact unthreaded_append_cons hends hname.unthreaded h

theorem unthreaded_of_checkField {endpoint field : String} {text : Text} {separators : List String}
    (h : checkField endpoint field text separators = .ok ()) : splitsIntoThreads text = false :=
  (checkField_ok.mp h).1

theorem unthreaded_of_checkExpressionField {endpoint field : String} {text : Text}
    {separators : List String}
    (h : checkExpressionField endpoint field text separators = .ok ()) :
    splitsIntoThreads text = false :=
  (checkExpressionField_ok.mp h).1.1

theorem slash_notMem_delim : '/' ∉ enterpriseDelim := by decide

theorem SofiaEndpoint.unthreaded {ep : SofiaEndpoint} (h : ep.checkDeliverable = .ok ()) :
    splitsIntoThreads ep.moduleText = false := by
  obtain ⟨hprofile, -, hdestination⟩ := checkDeliverable_ok.mp h
  have hopening : Opening "sofia/".toList := by decide
  have hmodule : ep.moduleText = "sofia/".toList ++ (ep.profile ++ '/' :: ep.destination) :=
    List.append_assoc _ _ _
  rw [hmodule]
  exact hopening.behind (unthreaded_append_cons slash_notMem_delim
    (unthreaded_of_checkField hprofile)
    (unthreaded_of_checkField hdestination))

theorem SofiaGateway.unthreaded {ep : SofiaGateway} (h : ep.checkDeliverable = .ok ()) :
    splitsIntoThreads ep.moduleText = false := by
  obtain ⟨hgateway, hprofile, hdestination⟩ := checkDeliverable_ok.mp h
  have hkey : splitsIntoThreads ep.key = false := by
    rw [key]
    cases hsome : ep.profile with
    | none => exact unthreaded_of_checkField hgateway
    | some profile => exact (checkProfile_ok.mp (hprofile profile hsome)).2.2
  have hopening : Opening "sofia/gateway/".toList := by decide
  have hmodule : ep.moduleText = "sofia/gateway/".toList ++ (ep.key ++ '/' :: ep.destination) :=
    List.append_assoc _ _ _
  rw [hmodule]
  exact hopening.behind (unthreaded_append_cons slash_notMem_delim hkey
    (unthreaded_of_checkField hdestination))

theorem unthreaded_segment {field : String} {separators : List String} {value : Option Text}
    (h : checkSegment field separators value = .ok ()) :
    ∀ segment ∈ value, splitsIntoThreads segment = false :=
  fun segment hmem => unthreaded_of_checkField (checkSegment_ok.mp h segment hmem).1

/-- No part of an accepted loopback splits. -/
theorem LoopbackEndpoint.unthreaded_parts {ep : LoopbackEndpoint}
    (h : ep.checkDeliverable = .ok ()) :
    splitsIntoThreads ep.extension = false ∧
      (∀ context ∈ ep.context, splitsIntoThreads context = false) ∧
      ∀ dialplan ∈ ep.dialplan, splitsIntoThreads dialplan = false := by
  cases happ : isApplication ep.extension with
  | true =>
      obtain ⟨hcontext, hdialplan⟩ := checkDeliverable_application h happ
      simp only [checkDeliverable, if_pos happ, then_ok_iff] at h
      rw [hcontext, hdialplan]
      exact ⟨unthreaded_of_checkField h.2.1, by simp, by simp⟩
  | false =>
      simp only [checkDeliverable, happ, Bool.false_eq_true, if_false, then_ok_iff] at h
      exact ⟨unthreaded_of_checkField h.1, unthreaded_segment h.2.1, unthreaded_segment h.2.2⟩

theorem LoopbackEndpoint.unthreaded {ep : LoopbackEndpoint} (h : ep.checkDeliverable = .ok ()) :
    splitsIntoThreads ep.moduleText = false := by
  obtain ⟨hextension, hcontext, hdialplan⟩ := unthreaded_parts h
  have hopening : Opening "loopback/".toList := by decide
  have hdefault : splitsIntoThreads defaultContext = false := by decide
  rw [moduleText]
  cases hplan : ep.dialplan with
  | none =>
      cases hcontextOf : ep.context with
      | none => exact hopening.behind hextension
      | some context =>
          have hrest := unthreaded_append_cons slash_notMem_delim hextension
            (hcontext context hcontextOf)
          exact (congrArg splitsIntoThreads (List.append_assoc _ _ _)).trans (hopening.behind hrest)
  | some dialplan =>
      have hfilled : splitsIntoThreads (ep.context.getD defaultContext) = false := by
        cases hcontextOf : ep.context with
        | none => exact hdefault
        | some context => exact hcontext context hcontextOf
      have hrest := unthreaded_append_cons slash_notMem_delim hextension
        (unthreaded_append_cons slash_notMem_delim hfilled (hdialplan dialplan hplan))
      have hsegments := (congrArg splitsIntoThreads (List.append_assoc _ _ _)).trans
        (hopening.behind hrest)
      cases hcontextOf : ep.context <;> rw [hcontextOf] at hsegments <;> exact hsegments

theorem UserEndpoint.unthreaded {ep : UserEndpoint} (h : ep.checkDeliverable = .ok ()) :
    splitsIntoThreads ep.moduleText = false := by
  rw [checkDeliverable, then_ok_iff] at h
  obtain ⟨hname, hrest⟩ := h
  have hopening : Opening "user/".toList := by decide
  rw [moduleText]
  cases hdomain : ep.domain with
  | none => exact hopening.behind (unthreaded_of_checkField hname)
  | some domain =>
      rw [hdomain] at hrest
      simp only [reduceCtorEq, and_false, if_false] at hrest
      have hrest := unthreaded_append_cons (by decide : '@' ∉ enterpriseDelim)
        (unthreaded_of_checkField hname)
        (unthreaded_of_checkField hrest)
      exact (congrArg splitsIntoThreads (List.append_assoc _ _ _)).trans (hopening.behind hrest)

/-- The bytes of a name hold those of its chars. -/
theorem bytes_of_mem {c : Char} {name : String} (h : c ∈ name.toList) {b : UInt8}
    (hb : b ∈ String.utf8EncodeChar c) : b ∈ name.toUTF8.data.toList := by
  have hbytes : name.toUTF8.data.toList = name.toList.flatMap String.utf8EncodeChar := by
    have hname : name.toUTF8 = (String.ofList name.toList).toUTF8 := by rw [String.ofList_toList]
    rw [hname]
    show (name.toList.utf8Encode).data.toList = _
    rw [List.utf8Encode]
    simp
  rw [hbytes]
  exact List.mem_flatMap.mpr ⟨c, h, hb⟩

/-- No name of a cause holds a char a pass reads. -/
theorem HangupCause.notMem_asStr (cause : HangupCause) {c : Char}
    (hc : c ∈ ['\\', '\'', ' ', ',', '|', '$', ':', '\x00']) : c ∉ cause.asStr.toList := by
  -- The kernel reads bytes of a literal faster than its chars.
  have hbytes : ∀ cause ∈ variants, ∀ b ∈ cause.asStr.toUTF8.data.toList,
      b ∉ ([92, 39, 32, 44, 124, 36, 58, 0] : List UInt8) := by decide +kernel
  have hencode : ∀ c ∈ ['\\', '\'', ' ', ',', '|', '$', ':', '\x00'],
      ∃ b ∈ ([92, 39, 32, 44, 124, 36, 58, 0] : List UInt8), b ∈ String.utf8EncodeChar c := by
    decide
  intro hmem
  obtain ⟨b, hb, hencoded⟩ := hencode c hc
  exact hbytes cause (mem_variants cause) b (bytes_of_mem hmem hencoded) hb

theorem ErrorEndpoint.unthreaded (ep : ErrorEndpoint) : splitsIntoThreads ep.toText = false := by
  have hopening : Opening "error/".toList := by decide
  have hcause : splitsIntoThreads ep.cause.asStr.toList = false := by
    refine unthreaded_iff.mpr fun hwithin => ?_
    exact ep.cause.notMem_asStr (by decide : ':' ∈ _) (hwithin.subset (by decide))
  exact hopening.behind hcause

theorem AudioEndpoint.unthreaded {ep : AudioEndpoint} (h : ep.checkDeliverable = .ok ())
    {kind : String}
    (hkind : splitsIntoThreads kind.toList = false) :
    splitsIntoThreads (ep.moduleText kind) = false := by
  rw [moduleText]
  cases hdestination : ep.destination with
  | none => exact hkind
  | some destination =>
      have hfield : checkField "audio" "destination" destination [] = .ok () := by
        rw [checkDeliverable, hdestination] at h
        cases destination with
        | nil => cases h
        | cons c rest => exact h
      exact unthreaded_append_cons slash_notMem_delim hkind (unthreaded_of_checkField hfield)

theorem unthreaded_order (order : GroupCallOrder) : splitsIntoThreads order.asStr = false := by
  cases order <;> decide

theorem SofiaContact.unthreaded {ep : SofiaContact} (h : ep.checkDeliverable = .ok ()) :
    splitsIntoThreads ep.moduleText = false := by
  obtain ⟨user, domain, profile, vars⟩ := ep
  simp only [checkDeliverable, then_ok_iff, checkPart] at h
  obtain ⟨huser, hdomain, hprofile⟩ := h
  have hopening : Opening "$\x7bsofia_contact(".toList := by decide
  have hclose : splitsIntoThreads ['}'] = false := by decide
  have haddress := unthreaded_append_cons (by decide : '@' ∉ enterpriseDelim)
    (unthreaded_of_checkExpressionField huser) (unthreaded_of_checkExpressionField hdomain.1)
  have hargument : splitsIntoThreads (argument ⟨user, domain, profile, vars⟩) = false := by
    cases profile with
    | none => exact haddress
    | some profile =>
        exact unthreaded_append_cons slash_notMem_delim
          (unthreaded_of_checkExpressionField (then_ok_iff.mp hprofile).1) haddress
  have hbody := unthreaded_append_cons (by decide : ')' ∉ enterpriseDelim) hargument hclose
  exact (congrArg splitsIntoThreads (List.append_assoc _ _ _)).trans (hopening.behind hbody)

theorem GroupCall.unthreaded {ep : GroupCall} (h : ep.checkDeliverable = .ok ()) :
    splitsIntoThreads ep.moduleText = false := by
  obtain ⟨group, domain, order, vars⟩ := ep
  simp only [checkDeliverable, then_ok_iff] at h
  obtain ⟨hgroup, hdomain⟩ := h
  have hopening : Opening "$\x7bgroup_call(".toList := by decide
  have hclose : splitsIntoThreads ['}'] = false := by decide
  have hplace : '@' ∉ enterpriseDelim := by decide
  have hargument : splitsIntoThreads (argument ⟨group, domain, order, vars⟩) = false := by
    cases order with
    | none =>
        exact unthreaded_append_cons hplace (unthreaded_of_checkExpressionField hgroup)
          (unthreaded_of_checkExpressionField hdomain)
    | some order =>
        exact unthreaded_append_cons hplace (unthreaded_of_checkExpressionField hgroup)
          (unthreaded_append_cons (by decide) (unthreaded_of_checkExpressionField hdomain)
            (unthreaded_order order))
  have hbody := unthreaded_append_cons (by decide : ')' ∉ enterpriseDelim) hargument hclose
  exact (congrArg splitsIntoThreads (List.append_assoc _ _ _)).trans (hopening.behind hbody)

namespace Endpoint

theorem unthreaded {ep : Endpoint} (h : ep.checkDeliverable = .ok ()) :
    splitsIntoThreads ep.moduleText = false := by
  cases ep with
  | sofia ep => exact SofiaEndpoint.unthreaded h
  | sofiaGateway ep => exact SofiaGateway.unthreaded h
  | loopback ep => exact LoopbackEndpoint.unthreaded h
  | user ep => exact UserEndpoint.unthreaded h
  | sofiaContact ep => exact SofiaContact.unthreaded h
  | groupCall ep => exact GroupCall.unthreaded h
  | error ep => exact ep.unthreaded
  | portAudio ep => exact AudioEndpoint.unthreaded h (by decide)
  | pulseAudio ep => exact AudioEndpoint.unthreaded h (by decide)
  | alsa ep => exact AudioEndpoint.unthreaded h (by decide)

/-- The chars a module text opens with. -/
theorem head_moduleText (ep : Endpoint) :
    ∃ c ∈ ['s', 'l', 'u', '$', 'e', 'p', 'a'], ep.moduleText.head? = some c := by
  cases ep with
  | sofia ep => exact ⟨'s', by decide, rfl⟩
  | sofiaGateway ep => exact ⟨'s', by decide, rfl⟩
  | loopback ep =>
      refine ⟨'l', by decide, ?_⟩
      obtain ⟨extension, context, dialplan, vars⟩ := ep
      cases context <;> cases dialplan <;> rfl
  | user ep =>
      refine ⟨'u', by decide, ?_⟩
      obtain ⟨name, domain, vars⟩ := ep
      cases domain <;> rfl
  | sofiaContact ep => exact ⟨'$', by decide, rfl⟩
  | groupCall ep => exact ⟨'$', by decide, rfl⟩
  | error ep => exact ⟨'e', by decide, rfl⟩
  | portAudio ep | pulseAudio ep =>
      refine ⟨'p', by decide, ?_⟩
      obtain ⟨destination, vars⟩ := ep
      cases destination <;> rfl
  | alsa ep =>
      refine ⟨'a', by decide, ?_⟩
      obtain ⟨destination, vars⟩ := ep
      cases destination <;> rfl

/-- **An accepted module text is one a dial string can dial.** -/
theorem dialled {ep : Endpoint} (h : ep.checkDeliverable = .ok ())
    (hfree : '\x00' ∉ ep.moduleText) :
    Dialled ep.moduleText := by
  obtain ⟨c, hc, hhead⟩ := ep.head_moduleText
  refine ⟨⟨hfree, fun d hd => ?_, ep.unthreaded h⟩, ?_⟩
  · have hopening : ∀ c ∈ ['s', 'l', 'u', '$', 'e', 'p', 'a'], c ∉ [' ', '<', '{', '[', '^'] := by
      decide
    obtain rfl : d = c := by
      rw [hhead] at hd
      exact (Option.some.inj hd).symm
    exact hopening d hc
  · rintro hnil
    rw [hnil] at hhead
    cases hhead

end Endpoint

/-! ### Expressions -/

/-- A text without a char of the passes. -/
def Inert (text : Text) : Prop := ∀ c ∈ text, c ∉ ['\\', '\'', ' ', ',', '|']

instance (text : Text) : Decidable (Inert text) :=
  inferInstanceAs (Decidable (∀ c ∈ text, c ∉ ['\\', '\'', ' ', ',', '|']))

theorem Inert.append {x y : Text} (hx : Inert x) (hy : Inert y) : Inert (x ++ y) := fun c hc =>
  (List.mem_append.mp hc).elim (hx c) (hy c)

theorem charAtom_inert {c : Char} (h : c ∉ ['\\', '\'', ' ', ',', '|']) :
    EscapedField.endpoint.charAtom c = .plain c := by
  simp only [List.mem_cons, List.not_mem_nil, or_false, not_or] at h
  obtain ⟨hbackslash, hquote, -, hcomma, hpipe⟩ := h
  simp [EscapedField.charAtom, EscapedField.level, hbackslash, hquote, hcomma, hpipe]

theorem atoms_inert {text : Text} (h : Inert text) :
    EscapedField.endpoint.atoms text = text.map Atom.plain := by
  have hmap : text.map EscapedField.endpoint.charAtom = text.map Atom.plain :=
    List.map_congr_left fun c hc => charAtom_inert (h c hc)
  have hspace : Atom.plain ' ' ∉ text.map Atom.plain := by
    intro hmem
    obtain ⟨c, hc, heq⟩ := List.mem_map.mp hmem
    cases heq
    exact h ' ' hc (by decide)
  have hhead : edgeHead (text.map Atom.plain) = text.map Atom.plain := by
    cases text with
    | nil => rfl
    | cons c rest =>
        have hc : c ≠ ' ' := by
          rintro rfl
          exact hspace List.mem_cons_self
        simp [edgeHead, hc]
  rw [EscapedField.atoms, EscapedField.caretAtoms, EscapedField.guardAtoms, hmap, hhead, edgeLast,
    if_neg fun hlast => hspace (List.mem_of_getLast? hlast), List.nil_append]

/-- **A text without chars of the passes is escaped as it is.** -/
theorem fieldText_inert {text : Text} (h : Inert text) (wraps : Bool) (level : Nat) :
    fieldText wraps level (EscapedField.endpoint.atoms text) = text := by
  have hspaced : spaced (text.map Atom.plain) = false := by
    rw [spaced, ← Bool.not_eq_true, List.contains_iff_mem]
    intro hmem
    obtain ⟨c, hc, heq⟩ := List.mem_map.mp hmem
    cases heq
    exact h ' ' hc (by decide)
  have hrender : render level (text.map Atom.plain) = text := by
    rw [render, List.flatMap_map]
    exact List.flatMap_singleton' text
  rw [atoms_inert h, fieldText, hspaced, Bool.and_false, if_neg Bool.false_ne_true, hrender]

/-- A text that stays inside the reference it is written into. -/
structure Enclosed (text : Text) : Prop where
  inert : Inert text
  balanced : Balanced '{' '}' text

theorem enclosed_of_check {endpoint field : String} {text : Text} {separators : List String}
    (h : checkExpressionField endpoint field text separators = .ok ()) : Enclosed text := by
  have hread := (checkExpressionField_ok.mp h).2
  rw [readBeforeTheFunction, Bool.or_eq_false_iff, Bool.or_eq_false_iff] at hread
  obtain ⟨⟨hchars, hbraces⟩, -⟩ := hread
  refine ⟨fun c hc hmem => ?_, balanced_of_unbalanced (by simpa using hbraces)⟩
  rw [List.any_eq_false] at hchars
  refine hchars c hc ?_
  rw [List.contains_iff_mem]
  simp only [List.mem_cons, List.not_mem_nil, or_false] at hmem ⊢
  tauto

theorem Enclosed.append {x y : Text} (hx : Enclosed x) (hy : Enclosed y) : Enclosed (x ++ y) :=
  ⟨hx.inert.append hy.inert, hx.balanced.append hy.balanced⟩

theorem Enclosed.cons {c : Char} {x : Text} (hc : c ∉ ['\\', '\'', ' ', ',', '|', '{', '}'])
    (hx : Enclosed x) :
    Enclosed (c :: x) := by
  refine Enclosed.append (x := [c]) ⟨fun d hd hmem => ?_, ?_⟩ hx
  · obtain rfl := List.mem_singleton.mp hd
    exact hc (List.mem_append_left ['{', '}'] hmem)
  · simp only [List.mem_cons, not_or] at hc
    refine depthFrom_of_notMem 0 ?_ ?_ <;> rw [List.mem_singleton]
    · exact fun h => hc.2.2.2.2.2.1 h.symm
    · exact fun h => hc.2.2.2.2.2.2.1 h.symm

theorem SofiaContact.enclosed_argument {ep : SofiaContact} (h : ep.checkDeliverable = .ok ()) :
    Enclosed ep.argument := by
  obtain ⟨user, domain, profile, vars⟩ := ep
  simp only [checkDeliverable, then_ok_iff, checkPart] at h
  obtain ⟨huser, hdomain, hprofile⟩ := h
  have haddress := (enclosed_of_check huser).append
    ((enclosed_of_check hdomain.1).cons (by decide : '@' ∉ _))
  cases profile with
  | none => exact haddress
  | some profile =>
      exact (enclosed_of_check (then_ok_iff.mp hprofile).1).append
        (haddress.cons (by decide : '/' ∉ _))

theorem GroupCall.enclosed_argument {ep : GroupCall} (h : ep.checkDeliverable = .ok ()) :
    Enclosed ep.argument := by
  obtain ⟨group, domain, order, vars⟩ := ep
  simp only [checkDeliverable, then_ok_iff] at h
  obtain ⟨hgroup, hdomain⟩ := h
  have hgroup := enclosed_of_check hgroup
  have hdomain := enclosed_of_check hdomain
  cases order with
  | none => exact hgroup.append (hdomain.cons (by decide : '@' ∉ _))
  | some order =>
      have horder : Enclosed order.asStr := by
        cases order <;> exact ⟨by decide, rfl⟩
      exact hgroup.append ((hdomain.append (horder.cons (by decide : '+' ∉ _))).cons
        (by decide : '@' ∉ _))

/-- A reference ends where its braces balance. -/
theorem referenceLength_balanced {depth : Nat} {x : Text} (h : depthFrom '{' '}' depth x = some 0) :
    x.length + 1 ≤ referenceLength false (depth + 1) (x ++ ['}']) := by
  induction x generalizing depth with
  | nil =>
      obtain rfl : depth = 0 := Option.some.inj h
      decide
  | cons c x ih =>
      unfold depthFrom at h
      rw [List.cons_append, referenceLength, List.length_cons]
      split_ifs at h with hopen hclose
      · subst hopen
        have hrest := ih h
        simp only [Char.reduceEq, and_false, if_false, and_self, if_true]
        omega
      · subst hclose
        cases depth with
        | zero => cases h
        | succ depth =>
            have hrest := ih h
            simp only [Nat.add_eq_right, Nat.succ_ne_zero, false_and, if_false, Char.reduceEq,
              Nat.lt_add_left_iff_pos, Nat.succ_pos, and_self, if_true, Nat.add_sub_cancel]
            omega
      · have hrest := ih h
        simp only [hclose, hopen, and_false, false_and, if_false]
        omega

/-- An expression whose argument its checks accept is one reference to its end. -/
structure Reference (text : Text) : Prop where
  inert : Inert text
  whole : ∃ body, text = '$' :: '{' :: body ∧ body.length ≤ referenceLength true 1 body

theorem reference_of_enclosed {c : Char} {opening argument : Text}
    (hc : c ∉ ['\\', '\'', ' ', ',', '|', '{', '}'])
    (hopening : Enclosed opening) (hargument : Enclosed argument) :
    Reference ('$' :: '{' :: c :: opening ++ argument ++ [')', '}']) := by
  have hbody : Enclosed (opening ++ argument ++ [')']) :=
    (hopening.append hargument).append ⟨by decide, rfl⟩
  have hsplit : '$' :: '{' :: c :: opening ++ argument ++ [')', '}'] =
      '$' :: '{' :: c :: (opening ++ argument ++ [')'] ++ ['}']) := by simp
  have hinert : Inert (['$', '{'] ++ (c :: (opening ++ argument ++ [')']) ++ ['}'])) :=
    Inert.append (by decide) ((hbody.cons hc).inert.append (by decide))
  have hclose : c ≠ '}' := by
    rintro rfl
    exact hc (by decide)
  rw [hsplit]
  refine ⟨hinert, _, rfl, ?_⟩
  have hlength := referenceLength_balanced hbody.balanced
  rw [referenceLength, if_neg (by simp [hclose]), if_neg (by simp), if_neg (by simp),
    List.length_cons, List.length_append]
  simpa using hlength

/-- **An accepted expression is one whole reference.** -/
theorem Endpoint.reference {ep : Endpoint} (h : ep.checkDeliverable = .ok ())
    (hexpression : ep.isExpression = true) :
    Reference ep.moduleText := by
  cases ep with
  | sofiaContact ep =>
      have hopening : Enclosed "ofia_contact(".toList := ⟨by decide, rfl⟩
      exact reference_of_enclosed (by decide : 's' ∉ _) hopening (SofiaContact.enclosed_argument h)
  | groupCall ep =>
      have hopening : Enclosed "roup_call(".toList := ⟨by decide, rfl⟩
      exact reference_of_enclosed (by decide : 'g' ∉ _) hopening (GroupCall.enclosed_argument h)
  | _ => cases hexpression

/-- A module text no pass may read. -/
theorem ErrorEndpoint.inert (ep : ErrorEndpoint) : Inert ep.toText := by
  have hopening : Inert "error/".toList := by decide
  refine hopening.append fun c hc hmem => ?_
  exact ep.cause.notMem_asStr (List.mem_append_left ['$', ':', '\x00'] hmem) hc

theorem ErrorEndpoint.dollar_notMem (ep : ErrorEndpoint) : '$' ∉ ep.toText := by
  have hopening : '$' ∉ "error/".toList := by decide
  intro hmem
  exact (List.mem_append.mp hmem).elim hopening (ep.cause.notMem_asStr (by decide))

end EslTokio
