import CppBase.Sanity.HttpParsing

/-! A line that is no request on a connection of an `HttpServer`: it stays in the buffer and is
read again with every piece that comes. -/

namespace CppBase.Muduo.Http

open CppBase.Lib

section BadLines

variable (httpCallback : HttpRequest → HttpResponse → HttpResponse) {c : Conn} {ctx : HttpContext} {r : HttpRequest}
  {line piece part tail : List UInt8}

theorem look_part (tail : List UInt8) (hclean : 13 ∉ line) (hpart : line ++ [13, 10] = part ++ tail) (hne : tail ≠ []) :
    look ⟨.kExpectRequestLine, r⟩ part = .leaves .more := by
  have hnone : findCRLF part = none := by
    cases hfind : findCRLF part with
    | none => rfl
    | some k =>
      obtain ⟨hlen, hfind'⟩ := findCRLF_append hfind tail
      rw [← hpart, findCRLF_line hclean] at hfind'
      have heq := Option.some.inj hfind'
      have hlength := congrArg List.length hpart
      have hpos := List.length_pos_iff.mpr hne
      simp only [List.length_append, List.length_cons, List.length_nil] at hlength
      omega
  rw [look, hnone]

end BadLines

end CppBase.Muduo.Http
