import ApiDocs.Text.Slice
import ApiDocs.Text.Split

/-! Breadcrumbs without the items of pages that have no title. -/

set_option autoImplicit false

namespace ApiDocs.Html

/-- A page without the first list item of its breadcrumbs that has no title, and without every text
that is equal to that item and the character after it. -/
def dropUntitled (page : Text) : Text :=
  let crumbs := Text.index "wy-breadcrumbs" page
  match Text.index? "&lt;no title&gt;" (Text.since page crumbs) with
  | none => page
  | some untitled =>
    let start := Text.lastIndex "<li>" (Text.upTo page (crumbs + untitled))
    let length := Text.index "</li>" (Text.since page start)
    Text.replace (Text.slice page start (start + length + 6)) "" page

end ApiDocs.Html
